import Lowering.Proofs.Body.Scope
import Lowering.Proofs.Body.Secures
import Lowering.Proofs.Function.Registry
import Lowering.Proofs.IR.Typing
/-!
# Workspaces in good order

While a body is lowered, a `Typing` says which registers are set at the point that code is going to. The variables of a
workspace are in good order there (`Variable.Sound`) when their storage and their known values are such registers, of
the types that the variables call for.

Lowering an expression emits straight code and leaves the variables what they are: it may learn values and write known
ones back, no more (`Scope.Refines`). The locals it defines are drawn from the supply one by one (`Draws`), which is all
there is to know about them.
-/

namespace Lowering

open IR (Code Instruction Setting Typing)

/-! ### Types of values -/

namespace TypeRef

variable {t : TypeRef} {ref : StructureRef}

theorem isLinear_iff : t.isLinear = true ↔ ∃ ref, t.linear? = some ref := Option.isSome_iff_exists

theorem irType_of_not_linear (h : t.isLinear = false) : t.irType = t.storageType := by
  simp [irType, h]

theorem irType_of_linear (h : t.isLinear = true) : t.irType = t.storageType.pointerTo := by
  simp [irType, h]

theorem linear?_eq_some (h : t.linear? = some ref) : t = ⟨.struct ref, 1⟩ := by
  obtain ⟨head, depth⟩ := t
  rcases head with _ | r
  · cases h
  unfold linear? at h
  simp_all

theorem isVoid_of_isLinear (h : t.isLinear = true) : t.isVoid = false := by
  obtain ⟨ref, href⟩ := isLinear_iff.1 h
  rw [linear?_eq_some href]
  rfl

theorem storageType_of_linear? (h : t.linear? = some ref) : t.storageType = ref.irType := by
  rw [linear?_eq_some h]
  rfl

theorem irType_of_linear? (h : t.linear? = some ref) : t.irType = ref.irType.pointerTo := by
  rw [linear?_eq_some h]
  rfl

theorem structure?_eq_some (h : t.structure? = some ref) : t.head = .struct ref := by
  obtain ⟨head, depth⟩ := t
  cases head with
  | primitive => cases h
  | struct => cases h; rfl

theorem irType_of_shallow (h : t.structure? = some ref) (hdepth : t.depth = 1 ∨ t.depth = 2) :
    t.irType = ref.irType.pointerTo := by
  have hhead := structure?_eq_some h
  obtain ⟨head, depth⟩ := t
  cases hhead
  obtain rfl | rfl := hdepth <;> rfl

theorem irType_isScalar {c : Catalog} (h : c.Usable t) (hvoid : t.isVoid = false) : t.irType.IsScalar := by
  obtain ⟨head, depth⟩ := t
  rcases head with kind | ref
  · cases depth with
    | zero =>
      refine .inr ⟨kind.bits, by cases kind <;> decide, ?_⟩
      cases kind <;> first | exact .inl rfl | exact .inr rfl | cases hvoid
    | succ depth => exact .inl (Nat.succ_ne_zero depth)
  match depth with
  | 0 => exact absurd rfl (h.deep ref rfl)
  | 1 => exact .inl Nat.one_ne_zero
  | depth + 2 => exact .inl (Nat.succ_ne_zero depth)

end TypeRef

/-! ### Locals -/

/-- Locals that were drawn from a supply between two moments: each only once. -/
def Draws (first last : Nat) (ids : List Nat) : Prop :=
  first ≤ last ∧ ids.Nodup ∧ ∀ id ∈ ids, first ≤ id ∧ id < last

namespace Draws

variable {a b c : Nat} {ids more : List Nat}

theorem nil (h : a ≤ b) : Draws a b [] := ⟨h, .nil, by simp⟩

theorem one (a : Nat) : Draws a (a + 1) [a] := ⟨by omega, by simp, by simp⟩

theorem append (h : Draws a b ids) (hmore : Draws b c more) : Draws a c (ids ++ more) := by
  refine ⟨h.1.trans hmore.1, List.nodup_append.2 ⟨h.2.1, hmore.2.1, ?_⟩, fun id hid => ?_⟩
  · intro x hx y hy hxy
    have := (h.2.2 x hx).2
    have := (hmore.2.2 y hy).1
    omega
  obtain hid | hid := List.mem_append.1 hid
  · have := h.2.2 id hid
    have := hmore.1
    omega
  have := hmore.2.2 id hid
  have := h.1
  omega

theorem perm (h : Draws a b ids) (hperm : ids.Perm more) : Draws a b more :=
  ⟨h.1, hperm.nodup_iff.1 h.2.1, fun id hid => h.2.2 id (hperm.mem_iff.2 hid)⟩

end Draws

/-! ### Variables -/

/-- A variable in good order where the registers of `Γ` are set. -/
structure Variable.Sound (c : Catalog) (Γ : Typing) (v : Variable) : Prop where
  usable : c.Usable v.ty
  notVoid : v.ty.isVoid = false
  /-- A variable that is not linear has memory behind it. -/
  stored : v.ty.isLinear = false →
    ∃ id, v.storage = some (.register v.ty.storageType.pointerTo id) ∧ (id, v.ty.storageType.pointerTo) ∈ Γ
  /-- A linear variable is an address that is known. -/
  linear : v.ty.isLinear = true → v.storage = none ∧ ∃ value, v.cache = some value
  cached : ∀ value, v.cache = some value → value.Fits Γ v.ty.irType
  dirty : v.dirty = true → ∃ value, v.cache = some value

theorem Variable.Sound.mono {v : Variable} (h : v.Sound c Γ) (hsub : Γ ⊆ Δ) :
    v.Sound c Δ where
  usable := h.usable
  notVoid := h.notVoid
  stored hlin := by
    obtain ⟨id, hstor, hid⟩ := h.stored hlin
    exact ⟨id, hstor, hsub hid⟩
  linear := h.linear
  cached value hvalue := (h.cached value hvalue).mono hsub
  dirty := h.dirty

/-- Variables in good order, and a supply that is ahead of every register. -/
structure Workspace.Sound (c : Catalog) (Γ : Typing) (w : Workspace) : Prop where
  vars : ∀ v ∈ w.scope.vars, v.Sound c Γ
  ahead : ∀ x ∈ Γ, x.1 < w.fresh

/-- The same variable, of which more may be known, and less may have to be written back. -/
structure Variable.Refines (v v' : Variable) : Prop where
  name : v'.name = v.name
  ty : v'.ty = v.ty
  storage : v'.storage = v.storage
  cache : ∀ value, v.cache = some value → v'.cache = some value
  dirty : v'.dirty = true → v.dirty = true

namespace Variable.Refines

theorem refl (v : Variable) : v.Refines v := ⟨rfl, rfl, rfl, fun _ h => h, fun h => h⟩

theorem trans {u v w : Variable} (h : u.Refines v) (h' : v.Refines w) : u.Refines w where
  name := h'.name.trans h.name
  ty := h'.ty.trans h.ty
  storage := h'.storage.trans h.storage
  cache value hvalue := h'.cache value (h.cache value hvalue)
  dirty hdirty := h.dirty (h'.dirty hdirty)

end Variable.Refines

/-- The same variables, of which more may be known. -/
structure Scope.Refines (s s' : Scope) : Prop where
  length : s'.vars.length = s.vars.length
  vars : ∀ id v v', s.get? id = some v → s'.get? id = some v' → v.Refines v'
  inherited : s'.inherited = s.inherited
  caching : s'.caching = s.caching

namespace Scope.Refines

variable {s s' s'' : Scope} {id : Nat}

theorem get?_left (h : s.Refines s') (hv : s'.get? id = some v') : ∃ v, s.get? id = some v ∧ v.Refines v' := by
  obtain ⟨hid, -⟩ := List.getElem?_eq_some_iff.1 hv
  have hid' : id < s.vars.length := by rw [← h.length]; exact hid
  have hu : s.get? id = some s.vars[id] := List.getElem?_eq_getElem hid'
  exact ⟨_, hu, h.vars id _ _ hu hv⟩

theorem get?_right (h : s.Refines s') (hv : s.get? id = some v) : ∃ v', s'.get? id = some v' ∧ v.Refines v' := by
  obtain ⟨hid, -⟩ := List.getElem?_eq_some_iff.1 hv
  have hid' : id < s'.vars.length := by rw [h.length]; exact hid
  have hu : s'.get? id = some s'.vars[id] := List.getElem?_eq_getElem hid'
  exact ⟨_, hu, h.vars id _ _ hv hu⟩

theorem refl (s : Scope) : s.Refines s where
  length := rfl
  vars id v v' hv hv' := by
    cases hv.symm.trans hv'
    exact .refl v
  inherited := rfl
  caching := rfl

theorem trans (h : s.Refines s') (h' : s'.Refines s'') : s.Refines s'' where
  length := h'.length.trans h.length
  vars id v v'' hv hv'' := by
    obtain ⟨v', hv', hrefines⟩ := h'.get?_left hv''
    exact (h.vars id v v' hv hv').trans hrefines
  inherited := h'.inherited.trans h.inherited
  caching := h'.caching.trans h.caching

theorem put (hv : s.get? id = some v) (h : v.Refines v') : s.Refines (s.put id v') where
  length := List.length_set ..
  vars other u u' hu hu' := by
    obtain ⟨rfl, rfl⟩ | ⟨-, hu'⟩ := Scope.get?_put hu'
    · simp_all
    · cases hu.symm.trans hu'
      exact .refl u
  inherited := rfl
  caching := rfl

end Scope.Refines

/-! ### Workspaces -/

namespace Workspace.Sound

variable {c : Catalog} {Γ Δ : Typing} {w : Workspace} {v : Variable}

theorem get? (h : w.Sound c Γ) {id} (hv : w.scope.get? id = some v) : v.Sound c Γ :=
  h.vars v (List.mem_of_getElem? hv)

theorem congr (h : w.Sound c Γ) (hiff : ∀ x, x ∈ Γ ↔ x ∈ Δ) : w.Sound c Δ where
  vars v hv := (h.vars v hv).mono fun x hx => (hiff x).1 hx
  ahead x hx := h.ahead x ((hiff x).2 hx)

theorem put (h : w.Sound c Γ) (id : Nat) (hv : v.Sound c Γ) :
    Workspace.Sound c Γ { w with scope := w.scope.put id v } where
  vars u hu := by
    obtain hu | rfl := Scope.mem_put hu
    · exact h.vars u hu
    · exact hv
  ahead := h.ahead

theorem push (h : w.Sound c Γ) (hv : v.Sound c Γ) :
    Workspace.Sound c Γ { w with scope := w.scope.push v } where
  vars u hu := by
    obtain hu | rfl := Scope.mem_push hu
    · exact h.vars u hu
    · exact hv
  ahead := h.ahead

end Workspace.Sound

/-- Code that only needs fresh locals: straight code, with the locals that were drawn for it. -/
structure Supplies (env : Setting) (Γ : Typing) (w : Workspace) (code : Code) (w' : Workspace) : Prop where
  straight : IR.Straight env Γ code
  scope : w'.scope = w.scope
  draws : Draws w.fresh w'.fresh (IR.definitions code)

/-- Code that a step on variables emits: straight code behind which the workspace is in good order again, with the same
variables, and the locals that were drawn for it. -/
structure Emits (env : Setting) (c : Catalog) (Γ : Typing) (w : Workspace) (code : Code) (w' : Workspace) :
    Prop where
  straight : IR.Straight env Γ code
  sound : w'.Sound c (Γ.past code)
  refines : w.scope.Refines w'.scope
  draws : Draws w.fresh w'.fresh (IR.definitions code)

namespace Supplies

variable {env : Setting} {c : Catalog} {Γ Δ : Typing} {w w' w'' : Workspace} {code more : Code}

theorem nil (env : Setting) (Γ : Typing) (w : Workspace) : Supplies env Γ w [] w :=
  ⟨.nil Γ, rfl, .nil le_rfl⟩

theorem append (h : Supplies env Γ w code w') (hmore : Supplies env (Γ.past code) w' more w'') :
    Supplies env Γ w (code ++ more) w'' where
  straight := h.straight.append hmore.straight
  scope := hmore.scope.trans h.scope
  draws := by
    rw [IR.definitions_append]
    exact h.draws.append hmore.draws

theorem set (w : Workspace) (value : IR.Value) (hvalue : value.Typed env Γ) (hfeasible : value.Feasible env) :
    Supplies env Γ w [.set w.fresh value] { w with fresh := w.fresh + 1 } :=
  ⟨.single ⟨hvalue, hfeasible⟩, rfl, .one w.fresh⟩

theorem effect (w : Workspace) (i : Instruction) (hi : i.Simple env Γ) (hdefs : IR.definitions [i] = []) :
    Supplies env Γ w [i] w :=
  ⟨.single hi, rfl, by simpa only [hdefs] using Draws.nil le_rfl⟩

/-- A workspace stays in good order wherever the code is put. -/
theorem sound (h : Supplies env Γ w code w') (hw : w.Sound c Δ) : w'.Sound c (Δ.past code) where
  vars v hv := (hw.vars v (h.scope ▸ hv)).mono (Typing.subset_past ..)
  ahead x hx := by
    obtain hx | hx := Typing.mem_past.1 hx
    · exact (h.draws.2.2 x.1 (IR.mem_definitions_of_mem_kept hx)).2
    · exact (hw.ahead x hx).trans_le h.draws.1

theorem emits (h : Supplies env Γ w code w') (hw : w.Sound c Γ) : Emits env c Γ w code w' :=
  ⟨h.straight, h.sound hw, h.scope ▸ .refl _, h.draws⟩

end Supplies

namespace Emits

variable {env : Setting} {c : Catalog} {Γ : Typing} {w w' w'' : Workspace} {code more : Code}

theorem nil (h : w.Sound c Γ) : Emits env c Γ w [] w := (Supplies.nil env Γ w).emits h

theorem append (h : Emits env c Γ w code w') (hmore : Emits env c (Γ.past code) w' more w'') :
    Emits env c Γ w (code ++ more) w'' where
  straight := h.straight.append hmore.straight
  sound := hmore.sound.congr fun _ => Typing.mem_past_append.symm
  refines := h.refines.trans hmore.refines
  draws := by
    rw [IR.definitions_append]
    exact h.draws.append hmore.draws

end Emits

/-- What the lowering of a body looks things up in is in good order, and agrees with what its code refers to. -/
structure Context.Sound (env : Setting) (ctx : Context) : Prop where
  catalog : ctx.catalog.Sound
  settled : ctx.catalog.Settled
  registry : ctx.registry.Sound ctx.catalog
  result : ctx.catalog.Usable ctx.returnType
  /-- A structure that is laid out is declared, with all its fields. -/
  declared : ∀ ref layout, ctx.catalog.Lists ref → ctx.catalog.layout? ref = some layout →
    (∃ d ∈ env.structures, d.name = ref.represent) ∧ env.allots ref.irType
  selects : ∀ ref layout, ctx.catalog.Lists ref → ctx.catalog.layout? ref = some layout →
    ∀ index field, layout.fields[index]? = some field → env.Selects ref.represent index field.ty.storageType
  /-- A function that can be called takes an address for a linear result, and then its arguments. -/
  callable : ∀ f ∈ ctx.registry.functions, f.failed = false → ∀ types, f.Linked ctx.catalog types →
    (if types.returnType.isLinear then
      ⟨f.represent, types.returnType.irType :: types.parameters.map TypeRef.irType, .void⟩
    else ⟨f.represent, types.parameters.map TypeRef.irType, types.returnType.irType⟩) ∈ env.prototypes
  calls : ∀ f ∈ ctx.registry.functions, f.failed = false → env.calls f.represent
  memcpy : .memcpy ∈ env.prototypes
  /-- There may be memory for strings. -/
  bytes : ∀ length, env.allots ⟨.array length (.int 8), 0⟩

/-- There may be variables of a written type. -/
def Catalog.Allots (env : Setting) (c : Catalog) (ty : TypeName) : Prop :=
  ∀ t, c.resolveValue [] ty = .ok t → env.allots t.storageType

theorem Context.Sound.linear {ctx : Context} (h : ctx.Sound env) {t : TypeRef} (ht : ctx.catalog.Usable t)
    (href : t.linear? = some ref) : (∃ d ∈ env.structures, d.name = ref.represent) ∧ env.allots ref.irType := by
  obtain ⟨layout, hlayout⟩ := ht.linked ref href
  exact h.declared ref layout (ht.known ref (Catalog.structure?_of_linear? href)) hlayout

theorem Context.Sound.storageType_sized {ctx : Context} (h : ctx.Sound env) {t : TypeRef} (ht : ctx.catalog.Usable t) :
    t.storageType.Sized env := by
  cases hlin : t.linear? with
  | some ref =>
    rw [TypeRef.storageType_of_linear? hlin]
    exact fun _ => (h.linear ht hlin).1
  | none =>
    intro hptr
    obtain ⟨head, depth⟩ := t
    rcases head with kind | ref
    · cases kind <;> trivial
    match depth with
    | 0 => exact absurd rfl (ht.deep ref rfl)
    | 1 => cases hlin
    | depth + 2 => cases hptr

end Lowering
