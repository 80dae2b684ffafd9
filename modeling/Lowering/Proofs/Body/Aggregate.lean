import Lowering.Body.Aggregate
import Lowering.Proofs.Machine.Layout
import Lowering.Proofs.Machine.Straight
/-!
# What the code for fields and for whole structures does to bytes

Going to a field finds the address behind the fields before it, and copying a structure copies as many bytes as its
layout takes, wherever the two places lie.
-/

namespace Lowering

open IR (Argument Local)

/-- The scalar that stands for an address. -/
def Scalar.address (a : Nat) : Scalar := .int (UInt64.ofNat a)

theorem Scalar.toNat_address (h : a < 2 ^ 64) : (address a).word.toNat = a := UInt64.toNat_ofNat_of_lt h

theorem Memory.Has.toNat_word {M : Memory} (h : M.Has a count) (hM : M.Proper) :
    (Scalar.address a).word.toNat = a :=
  Scalar.toNat_address ((Nat.le_add_right ..).trans_lt (h.stop_lt hM))

variable {site : Site} {R : Registers} {M : Memory}

/-- **Going to a field** of a structure, whether or not there is memory for it. -/
theorem Site.Runs.field {c : Catalog} (hc : c.Sound) (hm : c.DeclaredIn site.program) {base a}
    (hbase : R.argument base = .ok (.address a)) {ref layout} (href : c.Lists ref)
    (hlayout : c.layout? ref = some layout) (hstop : a + layout.size < 2 ^ 64) {index : Nat} {field}
    (hfield : layout.fields[index]? = some field) (hsmall : index < 2 ^ 31) (r : Local) (ty : IR.Ty) :
    site.Runs [.set r (.elementPointer ref.irType base [.i32 0, .i32 index] ty)] R M
      (R.set r (.address (a + c.fieldsSize (layout.fields.take index)))) M := by
  have hword := Scalar.toNat_address ((Nat.le_add_right ..).trans_lt hstop)
  obtain ⟨zero, hzero, hzeroInt⟩ := R.index_i32 (n := 0) (by decide)
  obtain ⟨i, hi, hiInt⟩ := R.index_i32 hsmall
  have hzero : R.index (.i32 0) = .ok zero := hzero
  refine .set fun rest => ?_
  refine (Effect.lift_bind hbase _ M).trans (Effect.lift_bind ?_ _ M)
  show elementAddress site.program (Scalar.address a).word ref.irType [R.index (.i32 0), R.index (.i32 index)] = _
  rw [hzero, hi, Catalog.elementAddress_struct hc hm href hlayout hfield hzeroInt hiInt (by rwa [hword]), hword]

/-- **Copying a structure.** The operands are registers in use, so that they are still there when the copy is made. -/
theorem copyStructure_runs (ref : StructureRef) (destination source : Argument) (w : Workspace) :
    ∃ code, copyStructure ref destination source w = .ok code { w with fresh := w.fresh + 3, copied := true } ∧
      ∀ {site : Site} {R M x y count},
        sizeOf site.program ref.irType = .ok count → M.Proper →
        (∀ R', Registers.Changes w.fresh (w.fresh + 3) R R' → R'.argument source = .ok x) →
        (∀ R', Registers.Changes w.fresh (w.fresh + 3) R R' → R'.argument destination = .ok y) →
        M.Has x.word.toNat count → M.Has y.word.toNat count →
          ∃ R', Registers.Changes w.fresh (w.fresh + 3) R R' ∧
            site.Runs code R M R' (M.patch y.word.toNat (M.slice x.word.toNat count)) := by
  refine ⟨_, rfl, ?_⟩
  intro site R M x y count hsize hM hsrc hdest hhas hhas'
  generalize (w.fresh : Nat) = first at hsrc hdest ⊢
  have hcount := hhas.count_lt hM
  let R1 := R.set first (.int (UInt64.ofNat count))
  let R2 := R1.set (first + 1) x
  let R3 := R2.set (first + 2) y
  have hchanges1 : Registers.Changes first (first + 3) R R1 := .set le_rfl (by omega) _ _
  have hchanges2 : Registers.Changes first (first + 3) R R2 := hchanges1.trans (.set (by omega) (by omega) _ _)
  have hchanges3 : Registers.Changes first (first + 3) R R3 := hchanges2.trans (.set (by omega) (by omega) _ _)
  have hsizeOf : site.Runs [.set first (.sizeOf ref.irType)] R M R1 M := .set fun rest => Effect.lift_bind hsize _ M
  have hstart : site.Runs [.set (first + 1) (.bitcast source .bytePointer)] R1 M R2 M := .set fun rest =>
    Effect.lift_bind (hsrc R1 hchanges1) _ M
  have htgt : site.Runs [.set (first + 2) (.bitcast destination .bytePointer)] R2 M R3 M := .set fun rest =>
    Effect.lift_bind (hdest R2 hchanges2) _ M
  have h1 : R3.get? first = some (.int (UInt64.ofNat count)) := by
    simp only [R3, R2, R1, Registers.get?_set]
    simp
  have h2 : R3.get? (first + 1) = some x := by
    simp only [R3, R2, Registers.get?_set]
    simp
  have h3 : R3.get? (first + 2) = some y := Registers.get?_set_self ..
  refine ⟨R3, hchanges3, hsizeOf.append (hstart.append (htgt.append (.of_step rfl fun rest => ?_)))⟩
  rw [step_copy h3 h2 h1 hcount]
  simp only [bind, EStateM.bind, Effect.copy_eq hM hhas hhas']
  rfl

/-- **Copying a structure to new memory.** The new bytes are behind all others. -/
theorem cloneStructure_runs (ref : StructureRef) (source : Argument) (w : Workspace) :
    ∃ code clone, cloneStructure ref source w = .ok (code, clone) { w with fresh := w.fresh + 4, copied := true } ∧
      ∀ {site : Site} {R M x count},
        sizeOf site.program ref.irType = .ok count → M.Proper →
        (∀ R', Registers.Changes w.fresh (w.fresh + 4) R R' → R'.argument source = .ok x) → M.Has x.word.toNat count →
          site.Fails code R M .outOfMemory ∨
          ∃ R' M', site.Runs code R M R' M' ∧ R'.argument clone = .ok (.address M.size) ∧
            M'.Proper ∧ M'.Has M.size count ∧ M'.slice M.size count = M.slice x.word.toNat count ∧
            ∀ i < M.size, M'.byteAt i = M.byteAt i := by
  obtain ⟨copy, hcopy, hruns⟩ := copyStructure_runs ref (.register ref.irType.pointerTo w.fresh) source
    { w with fresh := w.fresh + 1 }
  cases hcopy
  refine ⟨_, _, rfl, ?_⟩
  intro site R M x count hsize hM hsrc hhas
  by_cases hroom : M.size + count ≤ Memory.limit
  · have halloc := Site.Runs.alloc (r := w.fresh) (R := R) hsize hroom
    have hM1 := hM.grow hroom
    have hnew := hM.has_new count
    have hword : (Scalar.address M.size).word.toNat = M.size := hnew.toNat_word hM1
    have hsame (a n : Nat) : (M.grow (max count 1)).slice a n = M.slice a n :=
      Memory.slice_congr fun _ _ _ => Memory.byteAt_grow ..
    have hchanges : Registers.Changes w.fresh (w.fresh + 4) R (R.set w.fresh (.address M.size)) :=
      .set le_rfl (Nat.lt_add_of_pos_right (by decide)) _ _
    have hclone {R' : Registers}
        (h : Registers.Changes (w.fresh + 1) (w.fresh + 1 + 3) (R.set w.fresh (.address M.size)) R') :
        R'.argument (.register ref.irType.pointerTo w.fresh) = .ok (.address M.size) := by
      refine Registers.argument_register ?_
      rw [h w.fresh (by omega), Registers.get?_set_self]
    obtain ⟨R', hchanges', hcopies⟩ := hruns hsize hM1
      (fun R' h => hsrc R' (hchanges.trans (h.mono (Nat.le_succ _) le_rfl))) (fun R' h => hclone h)
      (hhas.mono (by rw [Memory.size_grow]; omega)) (by rwa [hword])
    rw [hword, hsame] at hcopies
    have hfits : M.size + (M.slice x.word.toNat count).length ≤ (M.grow (max count 1)).size := by
      rw [Memory.length_slice]
      exact hnew.allocated
    refine .inr ⟨R', _, halloc.append hcopies, hclone hchanges', hM1.patch .., ?_, ?_, fun i hi => ?_⟩
    · exact hnew.mono (Nat.le_of_eq (Memory.size_patch ..).symm)
    · have hslice := Memory.slice_patch _ M.size (M.slice x.word.toNat count) hfits
      rwa [Memory.length_slice] at hslice
    · rw [Memory.byteAt_patch _ _ _ hfits, if_neg (by omega), Memory.byteAt_grow]
  refine .inl ((Site.Fails.alloc_full hsize (Nat.lt_of_not_le hroom) ?_).append _)
  have hlimit : Memory.limit + 1 + (Memory.limit + 1) < 0x10000000000000000 := by decide
  have := hhas.allocated
  have := hM.limited
  omega

end Lowering
