import Lowering.Proofs.Machine.Bits
import Lowering.Proofs.Unit.Progress
/-!
# Bits above the width of an argument

Arguments are passed as they are, with anything above the bits of their types. Two integers that agree in the bits that
an integer of their type takes in memory are stored as the same bytes, and what is computed from the one is what is
computed from the other. So runs on such arguments go through the same memory, and come to the same end
(`high_bits_ignored`).

Widening with zeros is the one operation that does not clear the bits above the width first. It takes them for bits of
the number (`widenUnit_tells`).
-/

namespace Lowering

open List
open IR (Argument Module Procedure Setting Ty)

/-- Scalars of a type that the code of a module does not tell apart. -/
inductive Scalar.Agree (m : Module) (ty : Ty) : Scalar → Scalar → Prop where
  | same (x : Scalar) : Agree m ty x x
  | address {x y : Scalar} (hptr : ty.pointer ≠ 0) (h : y.word = x.word) : Agree m ty x y
  /-- Integers that are never widened with zeros, and have the same bytes in memory. -/
  | low {x y : Scalar} {bits : Nat} (hty : ty = .int bits) (hpos : 0 < bits) (hbits : bits ≤ 64)
      (hwidens : m.widens ty = false)
      (h : x.word.toNat % 2 ^ (8 * ((bits + 7) / 8)) = y.word.toNat % 2 ^ (8 * ((bits + 7) / 8))) : Agree m ty x y

namespace Word

variable {bits width n : Nat} {v w : UInt64}

theorem low_eq_of_mod (hle : bits ≤ width) (h : v.toNat % 2 ^ width = w.toNat % 2 ^ width) :
    low bits v = low bits w := by
  have hdvd : 2 ^ bits ∣ 2 ^ width := Nat.pow_dvd_pow 2 hle
  refine BitVec.eq_of_toNat_eq ?_
  rw [toNat_low, toNat_low, ← Nat.mod_mod_of_dvd _ hdvd, h, Nat.mod_mod_of_dvd _ hdvd]

theorem toBytes_eq_of_mod (h : v.toNat % 2 ^ (8 * n) = w.toNat % 2 ^ (8 * n)) : toBytes n v = toBytes n w := by
  induction n generalizing v w with
  | zero => rfl
  | succ n ih =>
    have hfirst : v.toUInt8 = w.toUInt8 := UInt8.toBitVec_inj.1 (low_eq_of_mod (by omega) h)
    have hrest : (v >>> 8).toNat % 2 ^ (8 * n) = (w >>> 8).toNat % 2 ^ (8 * n) := by
      rw [Nat.mul_succ, Nat.add_comm, Nat.pow_add] at h
      simp only [UInt64.toNat_shiftRight, show (8 : UInt64).toNat % 64 = 8 from rfl, Nat.shiftRight_eq_div_pow]
      rw [← Nat.mod_mul_right_div_self, h, Nat.mod_mul_right_div_self]
    rw [toBytes, toBytes, hfirst, ih hrest]

end Word

namespace Scalar.Agree

variable {m : Module} {ty : Ty} {x x' y y' : Scalar}

/-- Two pairs of numbers are the same, or integers with the same low bits. -/
theorem pair (hx : Agree m ty x x') (hy : Agree m ty y y') (hty : ty.pointer = 0) : (x' = x ∧ y' = y) ∨
    ∃ bits, ty = .int bits ∧ 0 < bits ∧ bits ≤ 64 ∧ m.widens ty = false ∧
      Word.low bits x'.word = Word.low bits x.word ∧ Word.low bits y'.word = Word.low bits y.word := by
  have hlow {bits : Nat} {x y : Scalar} (h : Agree m (.int bits) x y) :
      Word.low bits y.word = Word.low bits x.word := by
    cases h with
    | same => rfl
    | address _ h => rw [h]
    | low hty _ _ _ h =>
      cases hty
      exact Word.low_eq_of_mod (by omega) h.symm
  cases hx with
  | address hptr => exact absurd hty hptr
  | low hint hpos hbits hwidens h =>
    subst hint
    exact .inr ⟨_, rfl, hpos, hbits, hwidens, Word.low_eq_of_mod (by omega) h.symm, hlow hy⟩
  | same =>
    cases hy with
    | same => exact .inl ⟨rfl, rfl⟩
    | address hptr => exact absurd hty hptr
    | low hint hpos hbits hwidens h =>
      exact .inr ⟨_, hint, hpos, hbits, hwidens, rfl, Word.low_eq_of_mod (by omega) h.symm⟩

theorem storeScalar_eq (h : Agree m ty x y) (hty : ty.pointer = 0) (address : UInt64) :
    storeScalar m ty address y = storeScalar m ty address x := by
  cases h with
  | same => rfl
  | address hptr => exact absurd hty hptr
  | low hint hpos hbits hwidens h =>
    subst hint
    rename_i bits
    have hstore (s : Scalar) : storeScalar m (.int bits) address s = (do
        (← get).check address ((bits + 7) / 8)
        if 8 < (bits + 7) / 8 then
          throw .trap
        Effect.write address (Word.toBytes ((bits + 7) / 8) s.word)) := rfl
    rw [hstore, hstore, Word.toBytes_eq_of_mod h]

end Scalar.Agree

/-- Runs of code that does not tell some integers apart. -/
def Likeness.low (env : Setting) (m : Module) : Likeness env m False :=
  .shared env m False (Scalar.Agree m) fun _ => .same

theorem Likeness.low_scalar_iff {env : Setting} {m : Module} {ty : Ty} {x y : Scalar} :
    (low env m).scalar ty x y ↔ Scalar.Agree m ty x y := by
  unfold Likeness.scalar
  split
  · rfl
  · next hptr =>
    refine ⟨.address hptr, fun h => ?_⟩
    cases h with
    | same => rfl
    | address _ h => exact h
    | low hty => exact absurd (congrArg Ty.pointer hty) hptr

/-- **All operations on integers but one** give the same on integers that agree. -/
theorem Likeness.low_computes {env : Setting} {m : Module} (hwidens : ∀ ty, env.widens ty → m.widens ty = true) :
    (low env m).Computes where
  binary {operator mode ty x x' y y'} hmode hty hx hy := by
    have hsame : evalBinary operator mode ty x' y' = evalBinary operator mode ty x y := by
      obtain ⟨rfl, rfl⟩ | ⟨bits, rfl, hpos, hbits, -, hx, hy⟩ := Scalar.Agree.pair hx hy hty.1
      · rfl
      have hword (signed : Bool) :
          wordBinary operator signed bits x'.word y'.word = wordBinary operator signed bits x.word y.word := by
        simp only [wordBinary_eq hpos hbits, ← Word.toNat_low, hx, hy]
      cases mode with
      | float => cases (hmode rfl).2
      | signed => exact congrArg (Scalar.int <$> ·) (hword true)
      | unsigned => exact congrArg (Scalar.int <$> ·) (hword false)
    rw [hsame]
    exact .same .same fun _ => evalBinary_expected hmode
  compare {predicate ty x x' y y'} hty hx hy := by
    have hsame : evalCompare predicate ty x' y' = evalCompare predicate ty x y := by
      obtain ⟨rfl, rfl⟩ | ⟨bits, rfl, hpos, hbits, -, hx, hy⟩ := Scalar.Agree.pair hx hy hty.1.1
      · rfl
      cases hfloat : predicate.isFloat with
      | true => cases hty.2 hfloat
      | false =>
        refine Option.some.inj ?_
        rw [← evalCompare_eq hpos hbits hfloat, ← evalCompare_eq hpos hbits hfloat, hx, hy]
    rw [hsame]
    exact .same _
  convert {conversion source target x x'} hty hzext hx := by
    obtain ⟨hnum, hptr, hsuits⟩ := hty
    obtain ⟨rfl, -⟩ | ⟨bits, rfl, hpos, hbits, hno, hx, -⟩ := Scalar.Agree.pair hx hx hnum.1
    · exact .same _
    have hmask : Word.mask bits x'.word = Word.mask bits x.word := Word.mask_eq_mask_iff.2 hx
    have hsigned : Word.signed bits x'.word = Word.signed bits x.word := Int64.toInt_inj.1 (by
      rw [Word.toInt_signed_eq_low hpos hbits, Word.toInt_signed_eq_low hpos hbits, hx])
    have hsame : evalConvert conversion (.int bits) target x' = evalConvert conversion (.int bits) target x := by
      have hbits : wordBits (.int bits) = bits := rfl
      cases conversion with
      | trunc =>
        obtain ⟨base, pointer⟩ := target
        cases hptr
        cases base with
        | int bits' =>
          have hle : bits' ≤ bits := of_decide_eq_true hsuits
          have hlow : Word.low bits' x'.word = Word.low bits' x.word := by
            rw [← Word.low_mask hle, hmask, Word.low_mask hle]
          exact congrArg Scalar.int (Word.mask_eq_mask_iff.2 hlow)
        | _ => cases hsuits
      | zext => cases hno.symm.trans (hwidens _ (hzext rfl))
      | sext | sitofp => simp only [evalConvert, hbits, hsigned]
      | uitofp => simp only [evalConvert, hbits, hmask]
      | fptrunc | fpext | fptosi | fptoui => cases hsuits
    rw [hsame]
    exact .same _
  truth {s t} hs := by
    obtain ⟨rfl, -⟩ | ⟨bits, hty, -, -, -, hx, -⟩ := Scalar.Agree.pair hs hs rfl
    · rfl
    · cases hty
      show Word.mask 1 t.word = 1 ↔ Word.mask 1 s.word = 1
      rw [Word.mask_eq_mask_iff.2 hx]

section Unit

variable {fileId : Nat} {options : Options} {u : SourceUnit} {m : Module}

/-- **Bits above the width of an argument do not matter.** In a module that a unit compiles to, `runFresh` of a
procedure `p` on the first of each pair of arguments fails as it does on the second of each pair, or both give results
that agree. Arguments agree (`Scalar.Agree`) that are the same; integers also do if they have the same low bits, as many
as are stored of them, and if no number of their type is widened with zeros. -/
theorem high_bits_ignored (h : Compiles fileId options u m) {p : Procedure} (hp : p ∈ m.procedures)
    {arguments : List (Scalar × Scalar)}
    (hagree : Forall₂ (fun ty x => Scalar.Agree m ty x.1 x.2) (p.parameters.map Argument.ty) arguments) :
    (∃ e, runFresh m p.name (arguments.map Prod.fst) = .error e ∧
      runFresh m p.name (arguments.map Prod.snd) = .error e) ∨
    ∃ r r', runFresh m p.name (arguments.map Prod.fst) = .ok r ∧ runFresh m p.name (arguments.map Prod.snd) = .ok r' ∧
      Option.Rel (Scalar.Agree m p.returnType) r r' := by
  have hsound := h.sound False.elim
  have hkept := Likeness.shared_kept hsound.toDeclares (Likeness.low_computes fun _ h => h) fun address hty h =>
    h.storeScalar_eq hty address
  have hM : (Likeness.low (settingOf u m (surroundingsOf m.structures (functionsOf fileId u))) m).memory
    Machine.fresh.memory Machine.fresh.memory := ⟨rfl, le_rfl⟩
  have hfound := IR.Module.procedure?_of_mem h.procedures hp
  obtain ⟨f, hf, -, -, -, hname⟩ := h.function hp
  have hends := Machine.call_abreast hsound hkept (hname ▸ h.memcpy f hf) hM (.inr rfl) fun q hq => by
    cases hfound.symm.trans hq
    exact hagree.imp fun _ _ h => ⟨False.elim, Likeness.low_scalar_iff.2 h⟩
  unfold runFresh
  generalize (Machine.fresh.call m p.name (arguments.map Prod.fst)).1 = x at hends ⊢
  generalize (Machine.fresh.call m p.name (arguments.map Prod.snd)).1 = y at hends ⊢
  cases hends with
  | ok hres =>
    obtain ⟨q, hq, hres⟩ := hres
    cases hfound.symm.trans hq
    refine .inr ⟨_, _, rfl, rfl, ?_⟩
    cases hres with
    | none => exact .none
    | some h => exact .some (Likeness.low_scalar_iff.1 h)
  | error => exact .inl ⟨_, rfl, rfl⟩
  | left h => exact h.elim
  | right h => exact h.elim

/-- A division of integers of 32 bits, with and without anything above those. -/
theorem high_bits_ignored_quotientUnit : ∃ m p, Compiles 0 {} quotientUnit m ∧ p ∈ m.procedures ∧
    runFresh m p.name [.int 7, .int 2] = .ok (some (.int 3)) ∧
    ∃ r, runFresh m p.name [.int 0x500000007, .int 0x900000002] = .ok r ∧
      Option.Rel (Scalar.Agree m p.returnType) (some (.int 3)) r := by
  obtain ⟨m, -, hcompiles, hwidens, p, hp, htypes, hrun⟩ : ∃ m, (compileUnit 0 {} quotientUnit).1 = .ok m ∧
      Compiles 0 {} quotientUnit m ∧ m.widens (.int 32) = false ∧ ∃ p ∈ m.procedures,
        p.parameters.map Argument.ty = [.int 32, .int 32] ∧
        runFresh m p.name [.int 7, .int 2] = .ok (some (.int 3)) := by decide +kernel
  have hagree : Forall₂ (fun ty x => Scalar.Agree m ty x.1 x.2) (p.parameters.map Argument.ty)
      [(.int 7, .int 0x500000007), (.int 2, .int 0x900000002)] := by
    rw [htypes]
    exact .cons (.low rfl (by decide) (by decide) hwidens rfl)
      (.cons (.low rfl (by decide) (by decide) hwidens rfl) .nil)
  refine ⟨m, p, hcompiles, hp, hrun, ?_⟩
  obtain ⟨e, herr, -⟩ | ⟨r, r', hr, hr', hrel⟩ := high_bits_ignored hcompiles hp hagree
  · cases herr.symm.trans hrun
  · cases hr.symm.trans hrun
    exact ⟨r', hr', hrel⟩

end Unit

/-- A function that widens a byte. -/
def widenUnit : SourceUnit where
  functions := [
    { constantFunction "widen" [("x", "u8")] true (.call ⟨"u32", [.place "x"], {}⟩) with returnType := "u32" }]

/-- The bits above the byte get into the result, but not where an argument goes through memory first. -/
theorem widenUnit_tells :
    (∃ m, (compileUnit 0 { caching := true } widenUnit).1 = .ok m ∧ Compiles 0 { caching := true } widenUnit m ∧
      (∃ p ∈ m.procedures, p.name = "widen" ∧ p.parameters.map Argument.ty = [.int 8] ∧ p.returnType = .int 32) ∧
      runFresh m "widen" [.int 1] = .ok (some (.int 1)) ∧
      runFresh m "widen" [.int 0x101] = .ok (some (.int 0x101))) ∧
    ∃ m, (compileUnit 0 { caching := false } widenUnit).1 = .ok m ∧
      runFresh m "widen" [.int 0x101] = .ok (some (.int 1)) := by
  decide +kernel

end Lowering
