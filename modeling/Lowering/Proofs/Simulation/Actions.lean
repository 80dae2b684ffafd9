import Lowering.Proofs.Body.Aggregate
import Lowering.Proofs.Meaning.Memory
/-!
# What single instructions do to values in memory

Loading a value that is in memory and storing one: each is said in terms of the values of the language, not of words and
bytes.
-/

namespace Lowering

open IR (Argument Local)
open Meaning

namespace Site

variable {site : Site} {R : Registers} {M : Memory} {r : Local} {address : Argument} {a : Nat} {v : Value}
  {c : Catalog} {kind : Primitive}

/-- **Loading** a value that is in memory. -/
theorem Runs.load (hM : M.Proper) (haddr : R.argument address = .ok (.address a)) (hv : v.Fits c)
    (hty : v.ty = .primitive kind) (hholds : M.Holds a v) :
    site.Runs [.set r (.load kind.irType address)] R M (R.set r v.scalar) M := by
  obtain ⟨hhas, hbytes⟩ := hholds
  have hword := hhas.toNat_word hM
  rw [Value.bytes_of_primitive hty, Word.length_toBytes, ← hword] at hhas hbytes
  exact .fetch (Registers.load_eq_ok.2 ⟨_, haddr, (hv.liesAs hty site.program).load hM hhas hbytes⟩)

/-- **Storing** a value where there is room for it. -/
theorem Runs.store (hM : M.Proper) (haddr : R.argument address = .ok (.address a)) (hv : v.Fits c)
    (hty : v.ty = .primitive kind) (ho : R.operand kind.irType o = .ok v.scalar) (hhas : M.Has a v.bytes.length) :
    site.Runs [.store address ⟨kind.irType, o⟩] R M R (M.patch a v.bytes) := by
  have hword := hhas.toNat_word hM
  rw [Value.bytes_of_primitive hty, Word.length_toBytes, ← hword] at hhas
  have hstore := (hv.liesAs hty site.program).store hM hhas
  rw [hword, ← Value.bytes_of_primitive hty] at hstore
  exact .keep haddr ho hstore

end Site

end Lowering
