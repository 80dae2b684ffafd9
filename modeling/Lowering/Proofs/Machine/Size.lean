import Lowering.Machine.Run
import Lowering.Proofs.Except
import Lowering.Proofs.IR.Module
import Lowering.Proofs.IR.Typing
import Lowering.Proofs.Machine.Word
/-!
# Sizes of types, and where fields lie

Where all structures are declared, a size can only be missing because it does not fit a word (`sizeOf_traps`). A size
that is found does not depend on how deep structures may be nested, so the fields of a structure have sizes when it has
one, and lie inside of it (`totalSize_field`).
-/

namespace Lowering

open List
open IR (Module StructDeclaration Surroundings Ty)

/-! ### Numbers that do not fit -/

theorem Memory.fit_of_lt (h : n < 2 ^ 64) : Memory.fit n = .ok n := if_pos h

theorem Memory.fit_of_le (h : 2 ^ 64 ≤ n) : Memory.fit n = .error .trap := if_neg (Nat.not_lt.2 h)

theorem Memory.fit_eq_ok (h : Memory.fit n = .ok k) : k = n ∧ n < 2 ^ 64 := by
  by_cases hn : n < 2 ^ 64
  · simp_all [fit_of_lt hn]
  · rw [fit_of_le (Nat.not_lt.1 hn)] at h
    cases h

/-- Something that can only fail because a number does not fit a word. -/
def Traps {α : Type} (x : Except EvalError α) : Prop := ∀ e, x = .error e → e = .trap

namespace Traps

variable {α β : Type}

theorem ok (a : α) : Traps (.ok a) := by
  intro e h
  cases h

theorem bind {f : α → Except EvalError β} (h : Traps x) (hf : ∀ a, x = .ok a → Traps (f a)) : Traps (x >>= f) := by
  intro e he
  rcases hx : x with e' | a
  · rw [hx] at he
    cases he
    exact h e hx
  rw [hx] at he
  exact hf a hx e he

theorem fit (n : Nat) : Traps (Memory.fit n) := by
  intro e h
  by_cases hn : n < 2 ^ 64
  · rw [Memory.fit_of_lt hn] at h
    cases h
  rw [Memory.fit_of_le (Nat.not_lt.1 hn)] at h
  cases h
  rfl

end Traps

/-! ### Sums of sizes -/

section Total

variable {f g : Ty → Except EvalError Nat} {tys : List Ty} {total n : Nat}

theorem totalSize_eq {α : Type} {sizeOf f} (size : α → Nat) {as : List α}
    (h : ∀ a ∈ as, sizeOf (f a) = Memory.fit (size a)) {total} (htotal : total < 2 ^ 64) :
    totalSize sizeOf total (as.map f) = Memory.fit (total + (as.map size).sum) := by
  induction as generalizing total with
  | nil =>
    rw [map_nil, map_nil, sum_nil, Nat.add_zero, Memory.fit_of_lt htotal]
    rfl
  | cons a as ih =>
    rw [map_cons, map_cons, sum_cons, totalSize, h a (.head _)]
    by_cases hsize : size a < 2 ^ 64
    · rw [Memory.fit_of_lt hsize]
      simp only [bind, Except.bind]
      by_cases hsum : total + size a < 2 ^ 64
      · simp_all [Memory.fit_of_lt hsum, Nat.add_assoc]
      · rw [Memory.fit_of_le (Nat.not_lt.1 hsum), Memory.fit_of_le (by omega)]
    · rw [Memory.fit_of_le (Nat.not_lt.1 hsize), Memory.fit_of_le (by omega)]
      rfl

theorem totalSize_traps (h : ∀ ty ∈ tys, Traps (f ty)) (total : Nat) : Traps (totalSize f total tys) := by
  induction tys generalizing total with
  | nil => exact .ok total
  | cons ty rest ih =>
    refine .bind (h ty (.head _)) fun size _ => .bind (.fit _) fun total _ => ?_
    exact ih (fun ty hty => h ty (.tail _ hty)) total

theorem totalSize_cons (h : totalSize f total (ty :: tys) = .ok n) :
    ∃ size, f ty = .ok size ∧ total + size < 2 ^ 64 ∧ totalSize f (total + size) tys = .ok n := by
  obtain ⟨size, hsize, h⟩ := bind_eq_ok h
  obtain ⟨sum, hsum, h⟩ := bind_eq_ok h
  obtain ⟨rfl, hlt⟩ := Memory.fit_eq_ok hsum
  exact ⟨size, hsize, hlt, h⟩

theorem totalSize_le (h : totalSize f total tys = .ok n) : total ≤ n ∧ (total < 2 ^ 64 → n < 2 ^ 64) := by
  induction tys generalizing total with
  | nil =>
    cases h
    exact ⟨le_rfl, id⟩
  | cons ty rest ih =>
    obtain ⟨size, -, hlt, h⟩ := totalSize_cons h
    grind

theorem totalSize_mono (hfg : ∀ ty ∈ tys, ∀ k, f ty = .ok k → g ty = .ok k) (h : totalSize f total tys = .ok n) :
    totalSize g total tys = .ok n := by
  induction tys generalizing total with
  | nil => exact h
  | cons ty rest ih =>
    obtain ⟨size, hsize, hlt, h⟩ := totalSize_cons h
    simp_all [totalSize, bind, Except.bind, Memory.fit_of_lt hlt]

/-- A part has a size where the whole has one, and lies inside of it. -/
theorem totalSize_field (h : totalSize f total tys = .ok n) (hfield : tys[index]? = some field) :
    ∃ offset size, totalSize f total (tys.take index) = .ok offset ∧ f field = .ok size ∧ offset + size ≤ n := by
  induction tys generalizing total index with
  | nil => cases hfield
  | cons ty rest ih =>
    obtain ⟨size, hsize, hlt, hrest⟩ := totalSize_cons h
    rcases index with _ | index
    · cases hfield
      exact ⟨total, size, rfl, hsize, (totalSize_le hrest).1⟩
    obtain ⟨offset, size', hoffset, hsize', hle⟩ := ih hrest hfield
    refine ⟨offset, size', ?_, hsize', hle⟩
    rw [take_succ_cons, totalSize, hsize]
    simp only [bind, Except.bind]
    rw [Memory.fit_of_lt hlt]
    exact hoffset

end Total

/-! ### Sizes of types -/

/-- A module declares the structures that code refers to, each under a name of its own, and so do their fields. -/
structure IR.Module.Declares (m : Module) (env : Surroundings) : Prop where
  structures : env.structures = m.structures
  names : (m.structures.map StructDeclaration.name).Nodup
  sized : ∀ s ∈ m.structures, ∀ ty ∈ s.fields, ty.Sized env

section Types

variable {env : Surroundings} {m : Module} {f g : String → Except EvalError Nat} {ty : Ty} {name : String} {n : Nat}

theorem baseSize_traps (hf : ∀ d ∈ env.structures, Traps (f d.name)) (h : base.Sized env) :
    Traps (baseSize f base) := by
  induction base with
  | void | int | float => exact .ok _
  | struct name =>
    obtain ⟨d, hd, rfl⟩ := h
    exact hf d hd
  | array length element ih => exact .bind (ih h) fun size _ => .fit _

theorem typeSize_traps (hf : ∀ d ∈ env.structures, Traps (f d.name)) (h : ty.Sized env) : Traps (typeSize f ty) := by
  unfold typeSize
  split
  · next hptr => exact baseSize_traps hf (h hptr)
  · exact .ok _

theorem structSize_traps (hm : m.Declares env) (nesting : Nat) :
    ∀ d ∈ env.structures, Traps (structSize m nesting d.name) := by
  induction nesting with
  | zero =>
    rintro d - e ⟨⟩
    rfl
  | succ nesting ih =>
    intro d hd
    rw [hm.structures] at hd
    rw [structSize, Module.structure?_of_mem hm.names hd]
    exact totalSize_traps (fun ty hty => typeSize_traps ih (hm.sized d hd ty hty)) 0

/-- **A size is found, or it does not fit a word.** -/
theorem sizeOf_traps (hm : m.Declares env) (h : ty.Sized env) : Traps (sizeOf m ty) :=
  typeSize_traps (structSize_traps hm _) h

theorem baseSize_mono (hfg : ∀ name k, f name = .ok k → g name = .ok k) (h : baseSize f base = .ok n) :
    baseSize g base = .ok n := by
  induction base generalizing n with
  | void | int | float => exact h
  | struct name => exact hfg name n h
  | array length element ih =>
    obtain ⟨size, hsize, h⟩ := bind_eq_ok h
    rw [baseSize, ih hsize]
    exact h

theorem typeSize_mono (hfg : ∀ name k, f name = .ok k → g name = .ok k) (h : typeSize f ty = .ok n) :
    typeSize g ty = .ok n := by
  unfold typeSize at h ⊢
  split at h
  · next hptr => rw [if_pos hptr, baseSize_mono hfg h]
  · simp_all

/-- A size that is found is found however deep structures may be nested. -/
theorem structSize_succ (h : structSize m nesting name = .ok n) : structSize m (nesting + 1) name = .ok n := by
  induction nesting generalizing name n with
  | zero => cases h
  | succ nesting ih =>
    rw [structSize] at h ⊢
    rcases hs : m.structure? name with _ | s
    · rw [hs] at h
      cases h
    rw [hs] at h
    exact totalSize_mono (fun ty _ k hk => typeSize_mono (fun _ _ => ih) hk) h

theorem sizeOf_struct (h : sizeOf m ⟨.struct name, 0⟩ = .ok n) :
    ∃ s, m.structure? name = some s ∧ totalSize (sizeOf m) 0 s.fields = .ok n ∧ n < 2 ^ 64 := by
  have h : structSize m (m.structures.length + 1) name = .ok n := h
  rw [structSize] at h
  rcases hs : m.structure? name with _ | s
  · rw [hs] at h
    cases h
  rw [hs] at h
  refine ⟨s, rfl, ?_, (totalSize_le h).2 (by decide)⟩
  exact totalSize_mono (fun ty _ k hk => typeSize_mono (fun _ _ => structSize_succ) hk) h

end Types

/-! ### Fields -/

section Fields

variable {env : Surroundings} {m : Module} {s : StructDeclaration} {name : String} {index n : Nat} {field : Ty}
  (hs : m.structure? name = some s) (hfield : s.fields[index]? = some field)
include hs hfield

theorem elementAt_field {i : Int64} (hi : i.toInt = index) :
    elementAt m ⟨.struct name, 0⟩ i = (·, field) <$> totalSize (sizeOf m) 0 (s.fields.take index) := by
  have hsgn : ¬ i < 0 := by
    rw [Int64.lt_iff_toInt_lt, Int64.toInt_zero]
    omega
  unfold elementAt
  simp_all

theorem elementAddress_field {zero i : Int64} (hzero : zero.toInt = 0) (hi : i.toInt = index) (address : UInt64) :
    elementAddress m address ⟨.struct name, 0⟩ [.ok zero, .ok i] = (do
      let _ ← sizeOf m ⟨.struct name, 0⟩
      let offset ← totalSize (sizeOf m) 0 (s.fields.take index)
      let target ← Memory.fit (address.toNat + offset)
      return UInt64.ofNat target) := by
  have hdistance (size : Nat) : zero.toInt * (UInt64.ofNat size).toInt64.toInt = 0 := by rw [hzero, Int.zero_mul]
  have haddr : address + UInt64.ofInt 0 = address := UInt64.add_zero _
  unfold elementAddress
  rcases sizeOf m ⟨.struct name, 0⟩ with _ | size
  · rfl
  simp only [bind, Except.bind, hdistance, haddr]
  rw [descend]
  simp only [bind, Except.bind, elementAt_field hs hfield hi]
  cases totalSize (sizeOf m) 0 (s.fields.take index) with
  | error | ok => rfl

theorem elementAddress_within
    {zero i : Int64} (hzero : zero.toInt = 0) (hi : i.toInt = index) (hsize : sizeOf m ⟨.struct name, 0⟩ = .ok n)
    (h : elementAddress m address ⟨.struct name, 0⟩ [.ok zero, .ok i] = .ok target) :
    ∃ size, sizeOf m field = .ok size ∧ address.toNat ≤ target.toNat ∧ target.toNat + size ≤ address.toNat + n := by
  rw [elementAddress_field hs hfield hzero hi] at h
  obtain ⟨s', hs', htotal, -⟩ := sizeOf_struct hsize
  cases hs.symm.trans hs'
  obtain ⟨offset, size, hoffset, hsize, hle⟩ := totalSize_field htotal hfield
  obtain ⟨_, _, h⟩ := bind_eq_ok h
  obtain ⟨_, hoffset', h⟩ := bind_eq_ok h
  cases hoffset.symm.trans hoffset'
  obtain ⟨stop, hstop, h⟩ := bind_eq_ok h
  obtain ⟨rfl, hlt⟩ := Memory.fit_eq_ok hstop
  cases h
  rw [UInt64.toNat_ofNat_of_lt' hlt]
  exact ⟨size, hsize, by omega, by omega⟩

theorem elementAddress_traps (hm : m.Declares env)
    {zero i : Int64} (hzero : zero.toInt = 0) (hi : i.toInt = index) (address : UInt64) :
    Traps (elementAddress m address ⟨.struct name, 0⟩ [.ok zero, .ok i]) := by
  have hmem : s ∈ m.structures := mem_of_find?_eq_some hs
  have hname : s.name = name := by simpa using List.find?_some hs
  rw [elementAddress_field hs hfield hzero hi]
  refine .bind (sizeOf_traps hm fun _ => ⟨s, by rwa [hm.structures], hname⟩) fun _ _ => ?_
  refine .bind (totalSize_traps (fun ty hty => ?_) 0) fun offset _ => .bind (.fit _) fun _ _ => .ok _
  exact sizeOf_traps hm (hm.sized s hmem ty (mem_of_mem_take hty))

end Fields

theorem Registers.index_i32 (R : Registers) {n : Nat} (hn : n < 2 ^ 31) :
    ∃ i : Int64, R.index (.i32 n) = .ok i ∧ i.toInt = n := by
  refine ⟨Word.signed 32 (Word.mask 32 (UInt64.ofInt n)), rfl, ?_⟩
  have hword : (UInt64.ofInt n).toNat = n := by
    have hmod : ((n : Int) % 2 ^ 64).toNat = n := by omega
    show (UInt64.ofNat ((n : Int) % 2 ^ 64).toNat).toNat = n
    rw [hmod]
    exact UInt64.toNat_ofNat_of_lt' (hn.trans (by decide))
  rw [Word.toInt_signed (by decide) (by decide), Word.toNat_mask, hword, Nat.mod_eq_of_lt (by omega)]
  exact Int.bmod_eq_of_le (by omega) (by omega)

end Lowering
