import Lowering.Proofs.Body.Join
/-!
# The order that all operations on a scope keep

A variable is *formed* if it has a place for its value: storage, or an address if it is linear (`Variable.Formed`).
-/

namespace Lowering

open IR (Argument Local Operand)

theorem Variable.Same.symm {v v' : Variable} (h : v.Same v') : v'.Same v := ⟨h.name.symm, h.ty.symm, h.storage.symm⟩

variable {w w' : Workspace} {id : Nat}

/-! ### Variables that are formed -/

/-- A variable that has a place for its value, in a scope that keeps values in registers or does not. -/
structure Variable.Formed (caching : Bool) (v : Variable) : Prop where
  /-- The value of a normal variable has memory. -/
  normal : v.ty.isLinear = false → ∃ address, v.storage = some address
  /-- A linear variable is its address. -/
  linear : v.ty.isLinear = true → v.storage = none ∧ ∃ address, v.cache = some address
  /-- Only what is known can be written back. -/
  dirty : v.dirty = true → ∃ o, v.cache = some o
  uncached : caching = false → v.ty.isLinear = false → v.cache = none

namespace Variable.Formed

variable {caching : Bool} {v : Variable}

theorem not_linear (h : v.Formed caching) (hstor : v.storage = some address) : v.ty.isLinear = false := by
  refine Bool.eq_false_iff.2 fun hlin => ?_
  rw [(h.linear hlin).1] at hstor
  cases hstor

theorem stored (h : v.Formed caching) (hcache : v.cache = none) :
    ∃ address, v.storage = some address := by
  refine h.normal (Bool.eq_false_iff.2 fun hlin => ?_)
  obtain ⟨-, address, haddr⟩ := h.linear hlin
  simp_all

theorem known (h : v.Formed caching) (hkept : v.ty.isLinear = true ∨ caching = true) (o : Operand) (dirty : Bool) :
    Variable.Formed caching { v with cache := some o, dirty } where
  normal hlin := h.normal hlin
  linear hlin := ⟨(h.linear hlin).1, o, rfl⟩
  dirty _ := ⟨o, rfl⟩
  uncached hcaching hlin := by
    simp_all

theorem unknown (h : v.Formed caching) (hlin : v.ty.isLinear = false) :
    Variable.Formed caching { v with cache := none, dirty := false } where
  normal hlin := h.normal hlin
  linear hlin' := by
    simp_all
  dirty hdirty := by cases hdirty
  uncached _ _ := rfl

theorem flushed (h : v.Formed caching) : Variable.Formed caching { v with dirty := false } where
  normal := h.normal
  linear := h.linear
  dirty hdirty := by cases hdirty
  uncached := h.uncached

theorem declared (caching : Bool) (name : String) (ty : TypeRef) (register : Local) :
    (Variable.declared name ty register).Formed caching := by
  unfold Variable.declared
  by_cases hlin : ty.isLinear = true
  · constructor <;> simp [hlin]
  · constructor <;> simp [hlin]

theorem ofIncoming (p : Incoming) (caching : Bool) (register : Local) :
    (p.toVariable caching register).Formed caching := by
  unfold Incoming.toVariable
  by_cases hlin : p.ty.isLinear = true
  · constructor <;> simp [hlin]
  · cases caching <;> constructor <;> simp [hlin]

end Variable.Formed

def Scope.Formed (s : Scope) : Prop := ∀ v ∈ s.vars, v.Formed s.caching

namespace Scope

variable {s : Scope} {id : Nat} {v : Variable}

theorem Formed.get? (h : s.Formed) (hv : s.get? id = some v) : v.Formed s.caching := h v (mem_of_get? hv)

theorem Formed.push (h : s.Formed) (hv : v.Formed s.caching) : (s.push v).Formed := by
  intro u hu
  rcases mem_push hu with hu | rfl
  · exact h u hu
  · exact hv

theorem Formed.put (h : s.Formed) (id : Nat) (hv : v.Formed s.caching) : (s.put id v).Formed := by
  intro u hu
  rcases mem_put hu with hu | rfl
  · exact h u hu
  · exact hv

/-- A later state of a scope in which variables are still formed. -/
structure Keeps (s s' : Scope) : Prop where
  continues : s.Continues s'
  formed : s.Formed → s'.Formed

theorem Keeps.refl (s : Scope) : s.Keeps s := ⟨.refl s, fun h => h⟩

theorem Keeps.trans (h : s.Keeps s') (h' : s'.Keeps s'') : s.Keeps s'' :=
  ⟨h.continues.trans h'.continues, fun hs => h'.formed (h.formed hs)⟩

theorem Keeps.push (hv : v.Formed s.caching) : s.Keeps (s.push v) := ⟨.push s v, fun h => h.push hv⟩

theorem Keeps.put (hv : s.get? id = some v) (hsame : v.Same v') (hformed : v.Formed s.caching → v'.Formed s.caching) :
    s.Keeps (s.put id v') :=
  ⟨.put hv hsame, fun h => h.put id (hformed (h.get? hv))⟩

end Scope

/-! ### Operations keep variables formed -/

theorem declareVariable_keeps {ty : TypeRef} (h : declareVariable ty name w = .ok result w') :
    w.scope.Keeps w'.scope := by
  obtain ⟨-, -, -, rfl⟩ := (declareVariable_ensures ty name w).of_ok h
  exact .push (.declared _ _ _ _)

theorem declareParameter_keeps (h : declareParameter p w = .ok code w') : w.scope.Keeps w'.scope := by
  obtain ⟨-, -, rfl⟩ := (declareParameter_ensures p w).of_ok h
  exact .push (.ofIncoming p _ _)

theorem declareParameters_cons (h : declareParameters (p :: rest) w = .ok code w') :
    ∃ first more w1, declareParameter p w = .ok first w1 ∧
      declareParameters rest w1 = .ok more w' ∧ code = first ++ more := by
  have hsteps : Attains (declareParameters (p :: rest)) w fun code w' => ∃ first more w1,
      declareParameter p w = .ok first w1 ∧ declareParameters rest w1 = .ok more w' ∧ code = first ++ more := by
    refine .bind ((Attains.self _ _).mono fun first w1 _ hfirst => ?_)
    refine .bind ((Attains.self _ _).mono fun more w2 _ hmore => .pure ?_)
    exact ⟨first, more, w1, hfirst, hmore, rfl⟩
  exact hsteps.of_ok h

theorem declareParameters_keeps (h : declareParameters ps w = .ok code w') : w.scope.Keeps w'.scope := by
  induction ps generalizing w code with
  | nil =>
    cases h
    exact .refl _
  | cons p rest ih =>
    obtain ⟨first, more, w1, hfirst, hmore, -⟩ := declareParameters_cons h
    exact (declareParameter_keeps hfirst).trans (ih hmore)

theorem readVariable_keeps (h : readVariable id w = .ok result w') : w.scope.Keeps w'.scope := by
  obtain ⟨v, hv, ⟨o, -, -, rfl⟩ | ⟨address, -, -, -, rfl⟩⟩ := (readVariable_ensures id w).of_ok h
  · exact .refl _
  by_cases hcaching : w.scope.caching = true
  · simp only [if_pos hcaching]
    exact .put hv ⟨rfl, rfl, rfl⟩ fun hformed => hformed.known (.inr hcaching) _ _
  · simp only [if_neg hcaching]
    exact .refl _

theorem writeVariable_keeps (h : writeVariable id value w = .ok code w') : w.scope.Keeps w'.scope := by
  obtain ⟨v, hv, hcases⟩ := (writeVariable_ensures id value w).of_ok h
  obtain ⟨hlin, -, rfl⟩ | ⟨hlin, address, -, ⟨hcaching, -, rfl⟩ | ⟨-, -, rfl⟩⟩ := hcases
  · exact .put hv ⟨rfl, rfl, rfl⟩ fun hformed => hformed.known (.inl hlin) _ _
  · exact .put hv ⟨rfl, rfl, rfl⟩ fun hformed => hformed.known (.inr hcaching) _ _
  · exact .put hv ⟨rfl, rfl, rfl⟩ fun hformed => hformed.unknown hlin

theorem flushVariable_keeps (h : flushVariable id w = .ok code w') : w.scope.Keeps w'.scope := by
  obtain ⟨v, hv, ⟨address, o, -, -, -, -, rfl⟩ | ⟨-, rfl⟩⟩ := (flushVariable_ensures id w).of_ok h
  · exact .put hv ⟨rfl, rfl, rfl⟩ fun hformed => hformed.flushed
  · exact .refl _

/-! ### Operations on variables that are formed succeed -/

section Success

variable {w : Workspace} {id : Nat} {v : Variable} {caching : Bool}

theorem readVariable_ok (hv : w.scope.get? id = some v) (hformed : v.Formed caching) :
    ∃ result w', readVariable id w = .ok result w' :=
  (readVariable_ensures id w).exists_ok fun _ _ he => he.2 v hv fun hcache hstor => by
    obtain ⟨address, haddr⟩ := hformed.stored hcache
    cases hstor.symm.trans haddr

theorem writeVariable_ok (hv : w.scope.get? id = some v) (hformed : v.Formed caching) (value : Argument) :
    ∃ code w', writeVariable id value w = .ok code w' := by
  refine (writeVariable_ensures id value w).exists_ok fun _ _ he => ?_
  obtain ⟨hlin, hstor⟩ := he.2 v hv
  obtain ⟨address, haddr⟩ := hformed.normal hlin
  cases hstor.symm.trans haddr

theorem flushVariable_ok (hv : w.scope.get? id = some v) : ∃ code w', flushVariable id w = .ok code w' :=
  (flushVariable_ensures id w).exists_ok fun _ _ he => by cases hv.symm.trans he.2

theorem declareVariable_ok {ty : TypeRef} (howns : w.scope.owns name.symbol = false)
    (hvoid : ty.isVoid = false) : ∃ result w', declareVariable ty name w = .ok result w' := by
  refine (declareVariable_ensures ty name w).exists_ok fun _ _ he => ?_
  simp_all

end Success

end Lowering
