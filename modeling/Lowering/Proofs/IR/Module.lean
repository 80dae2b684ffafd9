import Mathlib.Data.List.Nodup
import Lowering.IR.Basic
/-!
# **Finding by name.** Where names differ, the structure or procedure of a name is the only one
-/

namespace Lowering.IR.Module

variable {m : Module}

theorem find?_key {α κ : Type} [BEq κ] [LawfulBEq κ] {key : α → κ} {as : List α} (hkeys : (as.map key).Nodup) {a}
    (ha : a ∈ as) : as.find? (fun b => key b == key a) = some a := by
  rcases hfound : as.find? (fun b => key b == key a) with _ | b
  · exact absurd (beq_self_eq_true (key a)) (List.find?_eq_none.1 hfound a ha)
  have hb : b ∈ as := List.mem_of_find?_eq_some hfound
  have hkey : key b = key a := by simpa using List.find?_some hfound
  rw [List.inj_on_of_nodup_map hkeys hb ha hkey]

theorem structure?_of_mem (hnames : (m.structures.map StructDeclaration.name).Nodup) {s : StructDeclaration}
    (hs : s ∈ m.structures) : m.structure? s.name = some s :=
  find?_key hnames hs

theorem procedure?_of_mem (hnames : (m.procedures.map Procedure.name).Nodup) {p : Procedure} (hp : p ∈ m.procedures) :
    m.procedure? p.name = some p :=
  find?_key hnames hp

theorem procedure?_eq_none (h : name ∉ m.procedures.map Procedure.name) : m.procedure? name = none :=
  List.find?_eq_none.2 fun p hp hname => h (List.mem_map.2 ⟨p, hp, by simpa using hname⟩)

end Lowering.IR.Module
