import Lowering.Proofs.Body.Attains
/-!
# What each operation on a scope comes to

An operation adds a variable or changes what is known of one. For each of them there is one lemma that says which code
comes of it and what the workspace is afterwards, or why there is neither; everything else is read off these.
-/

namespace Lowering

open List
open IR (Argument Code Local)

/-! ### Variables by position -/

namespace Scope

variable {s : Scope} {id : Nat} {v : Variable} {own : Variable}

theorem mem_of_get? (h : s.get? id = some v) : v ∈ s.vars := mem_of_getElem? h

theorem mem_put (h : v ∈ (s.put id own).vars) : v ∈ s.vars ∨ v = own := mem_or_eq_of_mem_set h

theorem mem_push (h : v ∈ (s.push own).vars) : v ∈ s.vars ∨ v = own := by
  rcases mem_append.1 h with h | h
  · exact .inl h
  · exact .inr (mem_singleton.1 h)

theorem get?_push (h : (s.push own).get? id = some v) : (id = s.vars.length ∧ v = own) ∨ s.get? id = some v := by
  by_cases hid : id < s.vars.length
  · exact .inr ((List.getElem?_append_left hid).symm.trans h)
  obtain ⟨hlt, hget⟩ := List.getElem?_eq_some_iff.1 h
  have hlast : id = s.vars.length := by
    simp only [Scope.push, length_append, length_singleton] at hlt
    omega
  simp [← hget, Scope.push, *]

theorem get?_push_self (s : Scope) (v : Variable) : (s.push v).get? s.vars.length = some v := by
  simp [Scope.get?, Scope.push]

theorem put_push (s : Scope) (v own : Variable) : (s.push v).put s.vars.length own = s.push own := by
  simp [Scope.put, Scope.push]

theorem put_get? (h : s.get? id = some v) : s.put id v = s := by
  obtain ⟨hid, rfl⟩ := List.getElem?_eq_some_iff.1 h
  simp [Scope.put]

theorem get?_put (h : (s.put n own).get? id = some v) : (id = n ∧ v = own) ∨ id ≠ n ∧ s.get? id = some v := by
  grind [Scope.get?, Scope.put]

end Scope

/-! ### Declaring -/

/-- A variable as it is declared, with its address in a register. -/
def Variable.declared (name : String) (ty : TypeRef) (register : Local) : Variable :=
  let address : Argument := .register ty.storageType.pointerTo register
  if ty.isLinear then ⟨name, ty, none, some address.value, false⟩ else ⟨name, ty, some address, none, false⟩

theorem declareVariable_ensures (ty : TypeRef) (name : Identifier) (w : Workspace) :
    Ensures (declareVariable ty name) w
      (fun result w' => w.scope.owns name.symbol = false ∧ ty.isVoid = false ∧
        result = (w.scope.vars.length, [.set w.fresh (.alloc ty.storageType)]) ∧
        w' = { w with fresh := w.fresh + 1, scope := w.scope.push (.declared name.symbol ty w.fresh) })
      fun e w' => w' = w ∧ ((w.scope.owns name.symbol = true ∧ e = .error (.duplicateVariable name.symbol) name.span) ∨
        w.scope.owns name.symbol = false ∧ ty.isVoid = true ∧ e = .error (.invalidVariableType ty) name.span) := by
  refine .bind (.get ?_)
  by_cases howns : w.scope.owns name.symbol = true
  · rw [if_pos howns]
    exact .bind (.throw ⟨rfl, .inl ⟨howns, rfl⟩⟩)
  rw [if_neg howns]
  rw [Bool.not_eq_true] at howns
  by_cases hvoid : ty.isVoid = true
  · rw [if_pos hvoid]
    exact .bind (.throw ⟨rfl, .inr ⟨howns, hvoid, rfl⟩⟩)
  · rw [if_neg hvoid]
    exact .bind (.fresh (.bind (.updateScope (.pure ⟨howns, Bool.eq_false_iff.2 hvoid, rfl, rfl⟩))))

namespace Incoming

/-- The variable of a parameter. One that is not linear gets memory of its own. -/
def toVariable (p : Incoming) (caching : Bool) (register : Local) : Variable :=
  let address : Argument := .register p.ty.storageType.pointerTo register
  if p.ty.isLinear then ⟨p.name.symbol, p.ty, none, some p.value.value, false⟩
  else if caching then ⟨p.name.symbol, p.ty, some address, some p.value.value, true⟩
  else ⟨p.name.symbol, p.ty, some address, none, false⟩

/-- The code that declares a parameter. -/
def code (p : Incoming) (caching : Bool) (register : Local) : Code :=
  if p.ty.isLinear then []
  else if caching then [.set register (.alloc p.ty.storageType)]
  else [.set register (.alloc p.ty.storageType), .store (.register p.ty.storageType.pointerTo register) p.value]

end Incoming

theorem declareParameter_ensures (p : Incoming) (w : Workspace) :
    Ensures (declareParameter p) w
      (fun code w' => w.scope.owns p.name.symbol = false ∧ code = p.code w.scope.caching w.fresh ∧
        w' = { w with
          fresh := if p.ty.isLinear then w.fresh else w.fresh + 1
          scope := w.scope.push (p.toVariable w.scope.caching w.fresh) })
      fun e w' => w' = w ∧ w.scope.owns p.name.symbol = true ∧
      e = .error (.duplicateVariable p.name.symbol) p.name.span := by
  unfold declareParameter Incoming.code Incoming.toVariable
  refine .bind (.get ?_)
  by_cases howns : w.scope.owns p.name.symbol = true
  · rw [if_pos howns]
    exact .bind (.throw ⟨rfl, howns, rfl⟩)
  rw [if_neg howns]
  rw [Bool.not_eq_true] at howns
  by_cases hlin : p.ty.isLinear = true
  · simp only [if_pos hlin]
    exact .bind (.updateScope (.pure ⟨howns, rfl, rfl⟩))
  simp only [if_neg hlin]
  refine .bind (.fresh ?_)
  by_cases hcaching : w.scope.caching = true
  · simp only [if_pos hcaching]
    exact .bind (.updateScope (.pure ⟨howns, rfl, rfl⟩))
  · simp only [if_neg hcaching]
    exact .bind (.updateScope (.pure ⟨howns, rfl, rfl⟩))

/-! ### Reading and writing -/

/-- The value of a variable is known or can be loaded. -/
def Variable.Available (v : Variable) : Prop := v.cache = none → v.storage ≠ none

/-- Whether a failure is a broken promise. -/
def Failure.IsInternal : Failure → Prop
  | .diagnostic _ => False
  | .internal _ => True

theorem variableAt_ensures (id : Nat) (w : Workspace) :
    Ensures (Work.variableAt id) w (fun v w' => w.scope.get? id = some v ∧ w' = w)
      fun e _ => e.IsInternal ∧ w.scope.get? id = none := by
  refine .bind (.get ?_)
  split
  · next v hv => exact .pure ⟨hv, rfl⟩
  · next hv => exact .throw ⟨trivial, hv⟩

/-- A variable is read from what is known of it, or loaded; then it is known, if values are kept. -/
theorem readVariable_ensures (id : Nat) (w : Workspace) :
    Ensures (readVariable id) w
      (fun result w' => ∃ v, w.scope.get? id = some v ∧
        ((∃ o, v.cache = some o ∧ result = ([], ⟨v.ty.irType, o⟩) ∧ w' = w) ∨
          ∃ address, v.cache = none ∧ v.storage = some address ∧
            result = ([.set w.fresh (.load v.ty.storageType address)], .register v.ty.irType w.fresh) ∧
            w' = { w with
              fresh := w.fresh + 1
              scope := if w.scope.caching then w.scope.put id { v with cache := some (.register w.fresh) }
                else w.scope }))
      fun e _ => e.IsInternal ∧ ∀ v, w.scope.get? id = some v → ¬ v.Available := by
  refine .bind ((variableAt_ensures id w).mono (fun v w' _ h => ?_) fun e w' _ h => ⟨h.1, by simp [h.2]⟩)
  obtain ⟨hv, rfl⟩ := h
  split
  · next o hcache => exact .pure ⟨v, hv, .inl ⟨o, hcache, rfl, rfl⟩⟩
  · next hcache hstor =>
    refine .throw ⟨trivial, fun u hu h => ?_⟩
    cases hv.symm.trans hu
    exact h hcache hstor
  rename_i address hcache hstor
  refine .bind (.fresh (.bind (.get ?_)))
  by_cases hcaching : w'.scope.caching = true
  · simp only [if_pos hcaching]
    exact .bind (.updateScope (.pure ⟨v, hv, .inr ⟨address, hcache, hstor, rfl, rfl⟩⟩))
  · simp only [if_neg hcaching]
    exact .bind (.pure (.pure ⟨v, hv, .inr ⟨address, hcache, hstor, rfl, rfl⟩⟩))

/-- A new value is known, and stored at once if values are not kept. -/
theorem writeVariable_ensures (id : Nat) (value : Argument) (w : Workspace) :
    Ensures (writeVariable id value) w
      (fun code w' => ∃ v, w.scope.get? id = some v ∧
        ((v.ty.isLinear = true ∧ code = [] ∧
            w' = { w with scope := w.scope.put id { v with cache := some value.value } }) ∨
          v.ty.isLinear = false ∧ ∃ address, v.storage = some address ∧
            ((w.scope.caching = true ∧ code = [] ∧
                w' = { w with scope := w.scope.put id { v with cache := some value.value, dirty := true } }) ∨
              w.scope.caching = false ∧ code = [.store address value] ∧
                w' = { w with scope := w.scope.put id { v with cache := none, dirty := false } })))
      fun e _ => e.IsInternal ∧ ∀ v, w.scope.get? id = some v → v.ty.isLinear = false ∧ v.storage = none := by
  refine .bind ((variableAt_ensures id w).mono (fun v w' _ h => ?_) fun e w' _ h => ⟨h.1, by simp [h.2]⟩)
  obtain ⟨hv, rfl⟩ := h
  by_cases hlin : v.ty.isLinear = true
  · simp only [if_pos hlin]
    exact .bind (.updateScope (.pure ⟨v, hv, .inl ⟨hlin, rfl, rfl⟩⟩))
  simp only [if_neg hlin]
  rw [Bool.not_eq_true] at hlin
  split
  · next hstor =>
    refine .throw ⟨trivial, fun u hu => ?_⟩
    simp_all
  rename_i address hstor
  refine .bind (.get ?_)
  by_cases hcaching : w'.scope.caching = true
  · simp only [if_pos hcaching]
    exact .bind (.updateScope (.pure ⟨v, hv, .inr ⟨hlin, address, hstor, .inl ⟨hcaching, rfl, rfl⟩⟩⟩))
  simp only [if_neg hcaching]
  refine .bind (.updateScope (.pure ⟨v, hv, .inr ⟨hlin, address, hstor, .inr ⟨?_, rfl, rfl⟩⟩⟩))
  exact Bool.eq_false_iff.2 hcaching

/-- A value that was not written back is stored. -/
theorem flushVariable_ensures (id : Nat) (w : Workspace) :
    Ensures (flushVariable id) w
      (fun code w' => ∃ v, w.scope.get? id = some v ∧
        ((∃ address o, v.dirty = true ∧ v.storage = some address ∧ v.cache = some o ∧
            code = [.store address ⟨v.ty.irType, o⟩] ∧
            w' = { w with scope := w.scope.put id { v with dirty := false } }) ∨
          code = [] ∧ w' = w))
      fun e _ => e.IsInternal ∧ w.scope.get? id = none := by
  refine .bind ((variableAt_ensures id w).mono (fun v w' _ h => ?_) fun _ _ _ h => h)
  obtain ⟨hv, rfl⟩ := h
  split
  · next address o hdirty hstor hcache =>
    refine .bind (.updateScope (.pure ?_))
    exact ⟨v, hv, .inl ⟨address, o, hdirty, hstor, hcache, rfl, rfl⟩⟩
  · exact .pure ⟨v, hv, .inr ⟨rfl, rfl⟩⟩

end Lowering
