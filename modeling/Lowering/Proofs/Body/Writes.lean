import Lowering.Body.Statement
import Lowering.Proofs.Body.Expression
/-!
# Statements without branches are lowered to straight, well-typed code

Declaring and assigning change what variables hold, and add variables, but a variable stays the variable it is
(`Scope.Continues`). A value that is stored is lowered before its variable is declared, yet its code is put behind the
allocation; straight code may be moved like that.
-/

namespace Lowering

open List
open IR (Argument Code Setting Typing)

/-! ### Scopes that go on -/

/-- The same variable, whatever it holds. -/
structure Variable.Same (v v' : Variable) : Prop where
  name : v'.name = v.name
  ty : v'.ty = v.ty
  storage : v'.storage = v.storage

variable {v : Variable} {ty : TypeRef}

theorem Variable.Refines.same (h : v.Refines v') : v.Same v' := ⟨h.name, h.ty, h.storage⟩

/-- A later state of a scope: all its variables are still there. -/
structure Scope.Continues (s s' : Scope) : Prop where
  vars : ∀ id v, s.get? id = some v → ∃ v', s'.get? id = some v' ∧ v.Same v'
  inherited : s'.inherited = s.inherited
  caching : s'.caching = s.caching

namespace Scope.Continues

variable {s s' s'' : Scope}

theorem refl (s : Scope) : s.Continues s := ⟨fun _ v hv => ⟨v, hv, rfl, rfl, rfl⟩, rfl, rfl⟩

theorem trans (h : s.Continues s') (h' : s'.Continues s'') : s.Continues s'' where
  vars id v hv := by
    obtain ⟨v', hv', hsame⟩ := h.vars id v hv
    obtain ⟨v'', hv'', hsame'⟩ := h'.vars id v' hv'
    exact ⟨v'', hv'', hsame'.name.trans hsame.name, hsame'.ty.trans hsame.ty, hsame'.storage.trans hsame.storage⟩
  inherited := h'.inherited.trans h.inherited
  caching := h'.caching.trans h.caching

theorem of_refines (h : s.Refines s') : s.Continues s' where
  vars id v hv := by
    obtain ⟨v', hv', hrefines⟩ := h.get?_right hv
    exact ⟨v', hv', hrefines.same⟩
  inherited := h.inherited
  caching := h.caching

theorem put {id v'} (hv : s.get? id = some v) (h : v.Same v') : s.Continues (s.put id v') where
  vars other u hu := by
    simp only [Scope.get?, Scope.put, List.getElem?_set] at hv hu ⊢
    split
    · grind
    · exact ⟨u, hu, rfl, rfl, rfl⟩
  inherited := rfl
  caching := rfl

theorem push (s : Scope) (v : Variable) : s.Continues (s.push v) where
  vars id u hu := by
    have hlt := (List.getElem?_eq_some_iff.1 hu).1
    exact ⟨u, (List.getElem?_append_left hlt).trans hu, rfl, rfl, rfl⟩
  inherited := rfl
  caching := rfl

end Scope.Continues

/-- What a statement without branches does to the workspace it is lowered in. -/
structure Performs (env : Setting) (c : Catalog) (Γ : Typing) (w : Workspace) (code : Code) (w' : Workspace) :
    Prop where
  straight : IR.Straight env Γ code
  sound : w'.Sound c (Γ.past code)
  continues : w.scope.Continues w'.scope
  draws : Draws w.fresh w'.fresh (IR.definitions code)

variable {env : Setting} {c : Catalog} {Γ : Typing} {w w' w'' : Workspace} {ctx : Context} {code more : Code}

theorem Emits.performs (h : Emits env c Γ w code w') : Performs env c Γ w code w' :=
  ⟨h.straight, h.sound, .of_refines h.refines, h.draws⟩

theorem Performs.append (h : Performs env c Γ w code w')
    (hmore : Performs env c (Γ.past code) w' more w'') : Performs env c Γ w (code ++ more) w'' where
  straight := h.straight.append hmore.straight
  sound := hmore.sound.congr fun _ => Typing.mem_past_append.symm
  continues := h.continues.trans hmore.continues
  draws := by
    rw [IR.definitions_append]
    exact h.draws.append hmore.draws

/-! ### Writing -/

theorem writeVariable_performs (h : w.Sound c Γ) {id} (hv : w.scope.get? id = some v)
    (hvalue : value.Fits Γ) (htype : value.ty = v.ty.irType) :
    Secures (writeVariable id value) w (Performs env c Γ w) := by
  have hsound := h.get? hv
  have hfits : value.value.Fits Γ v.ty.irType := by
    simp_all [Argument.Fits]
  refine (Secures.of_ensures (writeVariable_ensures id value _) fun _ _ he => ?_).mono fun code _ _ hres => ?_
  · obtain ⟨hlin, hstor⟩ := he.2 v hv
    obtain ⟨_, hstored, -⟩ := hsound.stored hlin
    cases hstor.symm.trans hstored
  obtain ⟨v', hv', hcases⟩ := hres
  cases hv.symm.trans hv'
  obtain ⟨-, rfl, rfl⟩ | ⟨hlin, address, hstor, ⟨-, rfl, rfl⟩ | ⟨-, rfl, rfl⟩⟩ := hcases
  · exact ⟨.nil Γ, h.put id (hsound.with_cache value.value hfits v.dirty), .put hv ⟨rfl, rfl, rfl⟩,
      .nil le_rfl⟩
  · exact ⟨.nil Γ, h.put id (hsound.with_cache value.value hfits true), .put hv ⟨rfl, rfl, rfl⟩, .nil le_rfl⟩
  obtain ⟨haddr, hpointee⟩ := hsound.storage_fits hstor
  have hscalar : value.ty.IsScalar := htype ▸ TypeRef.irType_isScalar hsound.usable hsound.notVoid
  exact ⟨.single ⟨⟨haddr, hvalue, htype ▸ hpointee⟩, .inl hscalar⟩, h.put id (hsound.without_cache hlin),
    .put hv ⟨rfl, rfl, rfl⟩, .nil le_rfl⟩

/-! ### Declaring -/

theorem Variable.sound_linear {name value} (hty : c.Usable ty) (hlin : ty.isLinear = true)
    (hvoid : ty.isVoid = false) (hvalue : value.Fits Γ ty.irType) :
    Variable.Sound c Γ ⟨name, ty, none, some value, false⟩ where
  usable := hty
  notVoid := hvoid
  stored hlin' := by
    simp_all
  linear _ := ⟨rfl, value, rfl⟩
  cached other hother := by
    cases hother
    exact hvalue
  dirty hdirty := by cases hdirty

theorem Variable.sound_stored (name : String) {id} (hty : c.Usable ty) (hlin : ty.isLinear = false)
    (hvoid : ty.isVoid = false) (hid : (id, ty.storageType.pointerTo) ∈ Γ) :
    Variable.Sound c Γ ⟨name, ty, some (.register ty.storageType.pointerTo id), none, false⟩ where
  usable := hty
  notVoid := hvoid
  stored _ := ⟨id, rfl, hid⟩
  linear hlin' := by
    simp_all
  cached value hvalue := by cases hvalue
  dirty hdirty := by cases hdirty

theorem Variable.Sound.declared (name : String) {id} (hty : c.Usable ty) (hvoid : ty.isVoid = false)
    (hid : (id, ty.storageType.pointerTo) ∈ Γ) : (Variable.declared name ty id).Sound c Γ := by
  unfold Variable.declared
  split
  · next hlin => exact sound_linear hty hlin hvoid (by rw [TypeRef.irType_of_linear hlin]; exact hid)
  · next hlin => exact sound_stored name hty (by simpa using hlin) hvoid hid

/-- Declaring a variable. Its allocation may be put anywhere. -/
theorem declareVariable_performs (h : w.Sound c Γ) (hty : c.Usable ty)
    (hmemory : ty.storageType.Sized env ∧ env.allots ty.storageType) (name : Identifier) :
    Secures (declareVariable ty name) w fun result w' =>
      Performs env c Γ w result.2 w' ∧ (∀ Δ, IR.Straight env Δ result.2) ∧
        ∃ v, w'.scope = w.scope.push v ∧ w'.scope.get? result.1 = some v ∧ v.ty = ty := by
  refine (declareVariable_ensures ty name _).mono (fun result _ _ hres => ?_) fun e _ _ he => ?_
  · obtain ⟨-, hvoid, rfl, rfl⟩ := hres
    have halloc : Supplies env Γ w _ _ := .set _ (.alloc ty.storageType) trivial hmemory
    have hv := Variable.Sound.declared name.symbol hty hvoid
      (mem_cons_self .. : (w.fresh, _) ∈ Γ.past [.set w.fresh (.alloc ty.storageType)])
    refine ⟨⟨halloc.straight, (halloc.sound h).push hv, .push _ _, halloc.draws⟩,
      fun _ => .single ⟨trivial, hmemory⟩, _, rfl, Scope.get?_push_self .., ?_⟩
    unfold Variable.declared
    split <;> rfl
  · obtain ⟨-, ⟨-, rfl⟩ | ⟨-, -, rfl⟩⟩ := he <;> rfl

/-- A parameter whose value has arrived. -/
structure Incoming.Sound (c : Catalog) (Γ : Typing) (p : Incoming) : Prop where
  usable : c.Usable p.ty
  notVoid : p.ty.isVoid = false
  fits : p.value.Fits Γ
  type : p.value.ty = p.ty.irType

theorem Incoming.Sound.mono {p : Incoming} (h : p.Sound c Γ) (hsub : Γ ⊆ Δ) : p.Sound c Δ :=
  ⟨h.usable, h.notVoid, h.fits.mono hsub, h.type⟩

theorem declareParameter_performs (h : w.Sound c Γ) (hp : p.Sound c Γ)
    (hmemory : p.ty.isLinear = false → p.ty.storageType.Sized env ∧ env.allots p.ty.storageType) :
    Secures (declareParameter p) w (Performs env c Γ w) := by
  have hfits : p.value.value.Fits Γ p.ty.irType := by
    have := hp.fits
    unfold Argument.Fits at this
    rwa [hp.type] at this
  refine (declareParameter_ensures p _).mono (fun code _ _ hres => ?_) fun e _ _ he => by rw [he.2.2]; rfl
  obtain ⟨-, rfl, rfl⟩ := hres
  unfold Incoming.code Incoming.toVariable
  split
  · next hlin =>
    exact ⟨.nil Γ, h.push (Variable.sound_linear hp.usable hlin hp.notVoid hfits), .push _ _, .nil le_rfl⟩
  rename_i hlin
  have hlin : p.ty.isLinear = false := by simpa using hlin
  have halloc : Supplies env Γ w _ _ := .set _ (.alloc p.ty.storageType) trivial (hmemory hlin)
  have hmem : (w.fresh, p.ty.storageType.pointerTo) ∈ Γ.past [.set w.fresh (.alloc p.ty.storageType)] :=
    mem_cons_self ..
  have hv := Variable.sound_stored p.name.symbol hp.usable hlin hp.notVoid hmem
  split
  · have hv' := hv.with_cache p.value.value (hfits.mono (Typing.subset_past ..)) true
    exact ⟨halloc.straight, (halloc.sound h).push hv', .push _ _, halloc.draws⟩
  · have hstore : IR.StoreTyped (Γ.past [.set w.fresh (.alloc p.ty.storageType)])
        (.register p.ty.storageType.pointerTo w.fresh) p.value :=
      ⟨hmem, hp.fits.mono (Typing.subset_past ..), by rw [hp.type, TypeRef.irType_of_not_linear hlin]; rfl⟩
    have hscalar : p.value.ty.IsScalar := hp.type ▸ TypeRef.irType_isScalar hp.usable hp.notVoid
    have hcode := halloc.append (.effect _ (.store _ _) ⟨hstore, .inl hscalar⟩ rfl)
    exact ⟨hcode.straight, (hcode.sound h).push hv, .push _ _, hcode.draws⟩

theorem declareParameters_performs (h : w.Sound c Γ)
    (hps : ∀ p ∈ ps, p.Sound c Γ ∧ (p.ty.isLinear = false → p.ty.storageType.Sized env ∧ env.allots p.ty.storageType)) :
    Secures (declareParameters ps) w (Performs env c Γ w) := by
  induction ps generalizing Γ w with
  | nil => exact .pure (Emits.nil h).performs
  | cons p rest ih =>
    obtain ⟨hp, hps⟩ := forall_mem_cons.1 hps
    refine .bind ((declareParameter_performs h hp.1 hp.2).mono fun code w' _ hcode => ?_)
    exact .bind ((ih hcode.sound fun q hq =>
      ⟨(hps q hq).1.mono (Typing.subset_past ..), (hps q hq).2⟩).mono fun more w'' _ hmore =>
      .pure (hcode.append hmore))

/-! ### Storing -/

/-- Storing a value at a location of its type. The code of the value comes first; what follows it writes. -/
theorem storeAt_performs (hctx : ctx.Sound env) (h : w.Sound ctx.catalog Γ)
    (hl : l.InSight ctx.catalog w.scope) (hfits : value.argument.Fits Γ)
    (htype : value.argument.ty = l.ty.irType) (hepilog : value.epilog = []) :
    Secures (storeAt ctx l value) w fun code w' =>
      ∃ write, code = value.code ++ write ∧ Performs env ctx.catalog Γ w write w' := by
  obtain ⟨husable, hvoid⟩ := hl.usable hctx.catalog h.vars
  have hscalar : value.argument.ty.IsScalar := htype ▸ TypeRef.irType_isScalar husable hvoid
  obtain ⟨root, steps, ty⟩ := l
  unfold storeAt
  simp only [hepilog, append_nil]
  split
  · obtain ⟨v, hv, rfl⟩ := hl
    exact .bind ((writeVariable_performs h hv hfits htype).mono fun write w' _ hwrite =>
      Ensures.pure ⟨write, rfl, hwrite⟩)
  · next ref href =>
    obtain ⟨v, hv, rfl⟩ := hl
    rw [TypeRef.irType_of_linear? href] at htype
    split
    · exact .bind ((writeVariable_performs h hv hfits (htype.trans (TypeRef.irType_of_linear? href).symm)).mono
        fun write w' _ hwrite => .pure ⟨write, rfl, hwrite⟩)
    split
    · exact .pure ⟨[], (append_nil _).symm, (Emits.nil h).performs⟩
    refine .bind ((readVariable_emits env h hv).mono fun read w1 _ hread => ?_)
    refine .bind ((copyStructure_supplies hctx w1 (hctx.linear husable href).1 hread.2.1
      (hread.2.2.trans (TypeRef.irType_of_linear? href)) (hfits.mono (Typing.subset_past ..)) htype).mono
        fun copy w' _ hcopy => .pure ?_)
    exact ⟨read.1 ++ copy, append_assoc .., (hread.1.append (hcopy.emits hread.1.sound)).performs⟩
  rename_i step rest
  refine .bind ((walkTo_emits hctx h hl false).mono fun walk w1 _ hwalk => ?_)
  obtain ⟨hemits, hdest, hdestinationType⟩ := hwalk
  split
  · next ref href =>
    have hptr : walk.2.ty = ref.irType.pointerTo := by
      rw [hdestinationType, TypeRef.storageType_of_linear? href]
      rfl
    refine .bind ((copyStructure_supplies hctx w1 (hctx.linear husable href).1 hdest hptr
      (hfits.mono (Typing.subset_past ..)) (htype.trans (TypeRef.irType_of_linear? href))).mono
        fun copy w' _ hcopy => .pure ?_)
    exact ⟨walk.1 ++ copy, append_assoc .., (hemits.append (hcopy.emits hemits.sound)).performs⟩
  rename_i hlin
  have hlin : ty.isLinear = false := by simp [TypeRef.isLinear, hlin]
  rw [TypeRef.irType_of_not_linear hlin] at htype
  have hstore : IR.StoreTyped (Γ.past walk.1) walk.2 value.argument :=
    ⟨hdest, hfits.mono (Typing.subset_past ..), by rw [hdestinationType, htype]; rfl⟩
  have hcode : Supplies env (Γ.past walk.1) w1 _ w1 :=
    .effect w1 (.store walk.2 value.argument) ⟨hstore, .inl hscalar⟩ rfl
  exact .pure ⟨walk.1 ++ _, append_assoc .., (hemits.append (hcode.emits hemits.sound)).performs⟩

/-! ### Statements -/

theorem lowerDeclare_performs (hctx : ctx.Sound env) (h : w.Sound ctx.catalog Γ) {ty : TypeName}
    (hallots : ctx.catalog.Allots env ty) (name : Identifier) :
    Secures (lowerDeclare ctx ty name) w (Performs env ctx.catalog Γ w) := by
  refine .bind (.check (Catalog.resolveValue_blames _) fun t ht => ?_)
  have husable := hctx.catalog.resolveValue_usable hctx.settled ht
  exact .bind ((declareVariable_performs h husable ⟨hctx.storageType_sized husable, hallots t ht⟩ name).mono
    fun _ _ _ hdecl => .pure hdecl.1)

/-- **A declaration with a value.** The value is lowered first and the variable declared behind it, but the allocation
is put before the code of the value. -/
theorem lowerDeclareAssign_performs (hctx : ctx.Sound env) (h : w.Sound ctx.catalog Γ) {ty : TypeName}
    (hallots : ctx.catalog.Allots env ty) (name : Identifier) (e : Expr) (span : Span) :
    Secures (lowerDeclareAssign ctx ty name e span) w (Performs env ctx.catalog Γ w) := by
  refine .bind ((lowerOperand_emits hctx h e none).mono fun value w1 _ hvalue => ?_)
  obtain ⟨hexpr, hsound, -⟩ := hvalue
  refine .bind (.check (Catalog.resolveValue_blames _) fun t ht => ?_)
  have husable := hctx.catalog.resolveValue_usable hctx.settled ht
  split
  · exact .bind .reject
  rename_i hty
  have hty : value.ty = t := not_not.1 hty
  refine .bind ((declareVariable_performs hexpr.sound husable
    ⟨hctx.storageType_sized husable, hallots t ht⟩ name).mono fun declared w2 _ hdecl => ?_)
  obtain ⟨root, allocate⟩ := declared
  obtain ⟨hallocate, hanywhere, v, -, hv, hvt⟩ := hdecl
  have hsight : Location.InSight ctx.catalog w2.scope ⟨root, [], t⟩ := ⟨v, hv, hvt⟩
  refine .bind ((storeAt_performs hctx hallocate.sound hsight (hsound.fits.mono (Typing.subset_past ..))
    (hsound.type.trans (by rw [hty])) hsound.epilog).mono fun store w3 _ hstore => .pure ?_)
  obtain ⟨write, rfl, hwrite⟩ := hstore
  constructor
  case straight =>
    refine (hanywhere Γ).append ((hexpr.straight.mono (Typing.subset_past ..)).append
      (hwrite.straight.mono fun x hx => ?_))
    simp only [Typing.mem_past] at hx ⊢
    tauto
  case sound =>
    refine hwrite.sound.congr fun x => ?_
    simp only [Typing.mem_past, IR.kept_append, mem_append]
    tauto
  case continues => exact hexpr.performs.continues.trans (hallocate.continues.trans hwrite.continues)
  case draws =>
    refine ((hexpr.draws.append hallocate.draws).append hwrite.draws).perm ?_
    simp only [perm_iff_count, IR.definitions_append, count_append]
    omega

theorem lowerAssign_performs (hctx : ctx.Sound env) (h : w.Sound ctx.catalog Γ) (target : Place)
    (e : Expr) (span : Span) :
    Secures (lowerAssign ctx target e span) w (Performs env ctx.catalog Γ w) := by
  refine .bind ((lowerOperand_emits hctx h e none).mono fun value w' _ hvalue => ?_)
  obtain ⟨hexpr, hsound, -⟩ := hvalue
  refine .bind (.get (.bind (.check (Scope.locate_blames _ _ _) fun l hl => ?_)))
  split
  · exact .bind .reject
  rename_i hty
  have hty : value.ty = l.ty := not_not.1 hty
  refine (storeAt_performs hctx hexpr.sound (Scope.locate_inSight hl) hsound.fits
    (hsound.type.trans (by rw [hty])) hsound.epilog).mono fun code w'' _ hstore => ?_
  obtain ⟨write, rfl, hwrite⟩ := hstore
  exact hexpr.performs.append hwrite

/-- A call for its effect: what is called is called once. -/
theorem lowerCallStatement_performs (hctx : ctx.Sound env) (h : w.Sound ctx.catalog Γ) (call : Call) :
    Secures (lowerCallStatement ctx call) w (Performs env ctx.catalog Γ w) := by
  refine .bind ((lowerCall_lowers hctx h call).mono fun l w' _ hl => ?_)
  obtain ⟨hexpr, hout, hepilog⟩ := hl
  simp only [hepilog, append_nil]
  split
  · next returnType callee arguments ho =>
    rw [ho] at hout
    have hcode : Supplies env (Γ.past l.code) w' _ w' :=
      .effect _ (.call returnType callee arguments) ⟨hout.1.1, hout.2.2 _ _ _ rfl⟩ rfl
    exact .pure (hexpr.append (hcode.emits hexpr.sound)).performs
  · exact .pure hexpr.performs

end Lowering
