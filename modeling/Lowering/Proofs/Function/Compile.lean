import Lowering.Function.Compile
import Lowering.Proofs.Body.Statement
import Lowering.Proofs.IR.Flatten
/-!
# Functions are compiled to well-formed procedures

The registers of a procedure's parameters are numbered from zero, and the label of its first block comes next. From
there the body is lowered to structured code, which flattens.
-/

namespace Lowering

open IR (Argument Code Laid Prototype Setting Surroundings)

/-! ### Interfaces -/

variable {p : Incoming} {types : Signature} {body : Block}

section Incoming

variable {parameters : List Parameter} {types : List TypeRef}

theorem incomingFrom_registers (h : types.length = parameters.length) (start : IR.Local) :
    ((incomingFrom start parameters types).map Incoming.value).filterMap (fun a => a.value.register?) =
      List.range' start types.length := by
  induction types generalizing start parameters with
  | nil => cases parameters <;> rfl
  | cons ty types ih =>
    cases parameters with
    | nil => cases h
    | cons p parameters =>
      exact congrArg (List.cons start) (ih (Nat.succ.inj h) (start + 1))

theorem incomingFrom_types (h : types.length = parameters.length) (start : IR.Local) :
    ((incomingFrom start parameters types).map Incoming.value).map Argument.ty = types.map TypeRef.irType := by
  induction types generalizing start parameters with
  | nil => cases parameters <;> rfl
  | cons ty types ih =>
    cases parameters with
    | nil => cases h
    | cons => exact congrArg (List.cons ty.irType) (ih (Nat.succ.inj h) (start + 1))

theorem mem_incomingFrom (h : p ∈ incomingFrom start parameters types) :
    p.ty ∈ types ∧ ∃ id, p.value = .register p.ty.irType id := by
  induction types generalizing start parameters with
  | nil => cases parameters <;> cases h
  | cons ty types ih =>
    rcases parameters with _ | ⟨q, parameters⟩
    · cases h
    obtain rfl | h := List.mem_cons.1 h
    · simp
    · grind

end Incoming

theorem mem_incoming (h : p ∈ (Interface.ofSignature parameters types).incoming) : p.ty ∈ types.parameters := by
  unfold Interface.ofSignature at h
  dsimp only at h
  split at h <;> exact (mem_incomingFrom h).1

/-- What a function looks like to its callers: a linear result has its address passed before the arguments. -/
def Function.prototype (f : Function) (types : Signature) : Prototype :=
  if types.returnType.isLinear then
    ⟨f.represent, types.returnType.irType :: types.parameters.map TypeRef.irType, .void⟩
  else ⟨f.represent, types.parameters.map TypeRef.irType, types.returnType.irType⟩

theorem Function.prototype_name (f : Function) (types : Signature) : (f.prototype types).name = f.represent := by
  unfold Function.prototype
  split <;> rfl

/-- An interface of a function: its registers are numbered from zero, and what arrives in them is what it takes. -/
structure Interface.Fits (c : Catalog) (f : Function) (types : Signature) (i : Interface) : Prop where
  registers : i.parameters.filterMap (fun a => a.value.register?) = List.range i.next
  operands : ∀ a ∈ i.parameters, ∃ id, a.value = .register id
  prototype : (⟨f.represent, i.parameters.map Argument.ty, i.returnType⟩ : Prototype) = f.prototype types
  incoming : ∀ p ∈ i.incoming, p.Sound c (IR.registersOf i.parameters)
  leaves : ∀ catalog registry, Context.Leaves ⟨catalog, registry, types.returnType, i.returnSlot⟩
    (IR.registersOf i.parameters) i.returnType

theorem incomingFrom_sound {f : Function} (hf : f.Linked c types)
    (hp : p ∈ incomingFrom start f.source.parameters types.parameters) (hall : p.value ∈ all) :
    p.Sound c (IR.registersOf all) := by
  obtain ⟨hty, id, hvalue⟩ := mem_incomingFrom hp
  obtain ⟨husable, hvoid⟩ := hf.parameters p.ty hty
  exact ⟨husable, hvoid, IR.fits_registersOf hall (by rw [hvalue]; rfl), by rw [hvalue]; rfl⟩

theorem Interface.ofSignature_fits {f : Function} (hf : f.Linked c types) :
    Interface.Fits c f types (.ofSignature f.source.parameters types) := by
  have hlen (start : IR.Local) :
      (incomingFrom start f.source.parameters types.parameters).length = types.parameters.length := by
    simpa using congrArg List.length (incomingFrom_types hf.arity start)
  have hoperands : ∀ start, ∀ a ∈ (incomingFrom start f.source.parameters types.parameters).map Incoming.value,
      ∃ id, a.value = .register id := by
    intro start a ha
    obtain ⟨p, hp, rfl⟩ := List.mem_map.1 ha
    obtain ⟨-, id, hvalue⟩ := mem_incomingFrom hp
    exact ⟨id, by rw [hvalue]; rfl⟩
  unfold Interface.ofSignature
  dsimp only
  split
  · next hlin =>
    obtain ⟨ref, href⟩ := TypeRef.isLinear_iff.1 hlin
    constructor
    case registers =>
      simp only [Interface.parameters, Option.toList_some, List.singleton_append, List.filterMap_cons]
      rw [incomingFrom_registers hf.arity, hlen, Nat.add_comm, List.range_eq_range']
      rfl
    case operands => exact List.forall_mem_cons.2 ⟨⟨0, rfl⟩, hoperands 1⟩
    case prototype =>
      rw [Function.prototype, if_pos hlin]
      simp only [Interface.parameters, Option.toList_some, List.singleton_append, List.map_cons,
        incomingFrom_types hf.arity]
      rfl
    case incoming =>
      exact fun p hp => incomingFrom_sound hf hp (.tail _ (List.mem_map.2 ⟨p, hp, rfl⟩))
    case leaves =>
      refine fun _ _ => ⟨fun _ _ => ⟨rfl, _, rfl, IR.fits_registersOf (.head _) rfl, rfl⟩, fun hnone => ?_⟩
      exact absurd (href.symm.trans hnone) (by simp)
  rename_i hlin
  constructor
  case registers =>
    simp only [Interface.parameters, Option.toList_none, List.nil_append]
    rw [incomingFrom_registers hf.arity, hlen, List.range_eq_range']
  case operands => exact hoperands 0
  case prototype =>
    simp [Function.prototype, hlin, Interface.parameters, incomingFrom_types hf.arity]
  case incoming => exact fun p hp => incomingFrom_sound hf hp (List.mem_map.2 ⟨p, hp, rfl⟩)
  case leaves =>
    refine fun _ _ => ⟨fun ref href => ?_, fun _ => rfl⟩
    exact absurd (TypeRef.isLinear_iff.2 ⟨ref, href⟩) (by simp [hlin])

/-! ### Bodies -/

variable {env : Setting} {catalog : Catalog} {registry : Registry} {f : Function} {types : Signature}

/-- The code of a function: the label of its first block, and structured code from there on. -/
theorem lowerEntry_laid (hctx : ctx.Sound env)
    (hleaves : ctx.Leaves Γ returnType) (h : path.Sound ctx.catalog Γ) (hpath : path.returned = false)
    (hincoming : ∀ p ∈ incoming, p.Sound ctx.catalog Γ ∧ env.allots p.ty.storageType)
    (hallots : ∀ ty ∈ body.writtenTypes, ctx.catalog.Allots env ty) :
    Secures (lowerEntry ctx path.label incoming body) path fun code path' =>
      ∃ rest stations, code = .label path.label :: rest ∧ Laid env returnType ⟨path.label, Γ⟩ rest none stations ∧
        Draws path.fresh path'.fresh (IR.definitions rest) := by
  refine .bind (.ofWork ((declareParameters_performs h fun p hp => ⟨(hincoming p hp).1, fun _ =>
    ⟨hctx.storageType_sized (hincoming p hp).1.usable, (hincoming p hp).2⟩⟩).mono fun declare w _ hdeclare => ?_))
  refine .bind ((lowerBody_laid { path with toWorkspace := w } hctx (hleaves.mono (IR.Typing.subset_past ..))
    hdeclare.sound hpath body hallots).mono fun code _ _ hcode => .pure ?_)
  obtain ⟨⟨stations, hlaid⟩, hdraws⟩ := hcode
  refine ⟨declare ++ code, _, rfl, .seq (.straight _ hdeclare.straight) hlaid, ?_⟩
  rw [IR.definitions_append]
  exact hdeclare.draws.append hdraws

def Function.interface (f : Function) (types : Signature) : Interface := .ofSignature f.source.parameters types

/-- The path that the body of a function begins on. -/
def Interface.start (i : Interface) (options : Options) : Path :=
  { fresh := i.next + 1, scope := { caching := options.caching }, label := i.next }

def Function.lower (catalog : Catalog) (registry : Registry) (options : Options) (f : Function) (types : Signature)
    (body : Block) : EStateM.Result Failure Path Code :=
  lowerEntry ⟨catalog, registry, types.returnType, (f.interface types).returnSlot⟩ (f.interface types).next
    (f.interface types).incoming body ((f.interface types).start options)

section Lowered

variable (habs : f.isAbstract = false) (hsignature : f.linkedSignature = .ok types) (hbody : f.source.body = some body)
include habs hsignature hbody

theorem compileFunction_of_ok (h : f.lower catalog registry options types body = .ok code path) :
    compileFunction catalog registry options f =
      ⟨assemble f (f.interface types) false code, path.reports, path.copied⟩ := by
  unfold Function.lower Function.interface Interface.start at h
  simp only [compileFunction, habs, hsignature, hbody, h]
  rfl

theorem compileFunction_of_error (h : f.lower catalog registry options types body = .error e path) :
    compileFunction catalog registry options f = ⟨.error e, path.reports, path.copied⟩ := by
  unfold Function.lower Function.interface Interface.start at h
  simp only [compileFunction, habs, hsignature, hbody, h]
  rfl

end Lowered

/-- A procedure of a function: one from outside has no blocks, and any other one is the function's code. -/
inductive Function.Emits (env : Surroundings) (catalog : Catalog) (registry : Registry) (options : Options)
    (f : Function) (types : Signature) : IR.Procedure → Prop where
  | outside {p : IR.Procedure} (hbody : f.source.body = none) (hext : p.external = true) (hblocks : p.blocks = []) :
      Emits env catalog registry options f types p
  | inside {p : IR.Procedure} {body : Block} {code : Code} {path : Path} (hbody : f.source.body = some body)
      (hcode : f.lower catalog registry options types body = .ok code path)
      (hflattens : IR.Flattens f.represent (f.interface types).returnType (f.interface types).parameters code p)
      (hwellFormed : p.WellFormed env) : Emits env catalog registry options f types p

/-- What may become of a function that can be called: an error in the program, no procedure, or one of its own, which
can be run if it has code. -/
def Function.Yields (env : Setting) (catalog : Catalog) (registry : Registry) (options : Options) (f : Function)
    (types : Signature) : Except Failure (Option IR.Procedure) → Prop
  | .error e => e.IsDiagnostic
  | .ok none => f.isAbstract = true
  | .ok (some p) => (⟨p.name, p.parameters.map Argument.ty, p.returnType⟩ : Prototype) = f.prototype types ∧
    f.Emits env catalog registry options types p ∧ (p.external = false → p.Runnable env)

section Linked

variable (hf : f.Linked catalog types)
include hf

theorem assemble_external (hbody : f.source.body = none) (options : Options) :
    f.Yields env catalog registry options types (assemble f (f.interface types) true []) := by
  have hi : (f.interface types).Fits catalog f types := Interface.ofSignature_fits hf
  have hnodup : (IR.Numbering.collect (f.interface types).parameters []).Nodup := by
    grind [IR.Numbering.collect, hi.registers]
  rw [assemble, IR.flatten_eq hnodup rfl rfl]
  refine ⟨?_, .outside hbody rfl rfl, fun h => by cases h⟩
  rw [← hi.prototype, List.map_map]
  rfl

theorem Function.Linked.written :
    ∀ t ∈ types.returnType :: types.parameters, ∃ ty ∈ f.source.writtenTypes, catalog.resolveValue [] ty = .ok t := by
  obtain ⟨result, hres, hresolved⟩ := bind_eq_ok hf.resolved
  obtain ⟨parameters, hparams, hresolved⟩ := bind_eq_ok hresolved
  cases hresolved
  refine List.forall_mem_cons.2 ⟨⟨_, .head _, hres⟩, fun t ht => ?_⟩
  obtain ⟨p, hp, ht⟩ := exists_of_mem_mapM hparams ht
  exact ⟨p.ty, List.mem_append_left _ (.tail _ (List.mem_map_of_mem hp)), (resolveParameter_eq_ok ht).1⟩

variable (hallots : ∀ ty ∈ f.source.writtenTypes, catalog.Allots env ty)
include hallots

theorem Function.Linked.allots {t : TypeRef} (ht : t ∈ types.parameters) : env.allots t.storageType := by
  obtain ⟨ty, hty, hresolved⟩ := hf.written t (.tail _ ht)
  exact hallots ty hty t hresolved

/-- The body of a function is lowered to structured code, behind the label of the first block. -/
theorem Function.lower_laid
    (hctx : Context.Sound env ⟨catalog, registry, types.returnType, (f.interface types).returnSlot⟩)
    (options : Options) (hbody : f.source.body = some body) :
    match f.lower catalog registry options types body with
    | .ok code path => ∃ rest stations, code = .label (f.interface types).next :: rest ∧
      Laid env (f.interface types).returnType ⟨(f.interface types).next, IR.registersOf (f.interface types).parameters⟩
        rest none stations ∧ Draws ((f.interface types).next + 1) path.fresh (IR.definitions rest)
    | .error e _ => e.IsDiagnostic := by
  have hi : (f.interface types).Fits catalog f types := Interface.ofSignature_fits hf
  have hstart : Workspace.Sound catalog (IR.registersOf (f.interface types).parameters)
      ((f.interface types).start options).toWorkspace := by
    refine ⟨fun v hv => absurd hv List.not_mem_nil, fun x hx => ?_⟩
    have hx := IR.mem_registersOf hx
    rw [hi.registers, List.mem_range] at hx
    exact Nat.lt_succ_of_lt hx
  have hincoming : ∀ p ∈ (f.interface types).incoming, p.Sound catalog (IR.registersOf (f.interface types).parameters) ∧
      env.allots p.ty.storageType :=
    fun p hp => ⟨hi.incoming p hp, hf.allots hallots (mem_incoming hp)⟩
  have hwritten : ∀ ty ∈ body.writtenTypes, catalog.Allots env ty := fun ty hty =>
    hallots ty (List.mem_append_right _ (by rwa [hbody]))
  have hlaid := lowerEntry_laid hctx (hi.leaves _ _) hstart rfl hincoming hwritten
  cases hcode : f.lower catalog registry options types body with
  | ok => exact Ensures.of_ok hlaid hcode
  | error => exact Ensures.of_error hlaid hcode

theorem assemble_body (hctx : Context.Sound env ⟨catalog, registry, types.returnType, (f.interface types).returnSlot⟩)
    (hbody : f.source.body = some body) (hcode : f.lower catalog registry options types body = .ok code path) :
    f.Yields env catalog registry options types (assemble f (f.interface types) false code) := by
  have hi : (f.interface types).Fits catalog f types := Interface.ofSignature_fits hf
  have hlaid := Function.lower_laid hf hallots hctx options hbody
  rw [hcode] at hlaid
  obtain ⟨rest, stations, rfl, hlaid, hdraws⟩ := hlaid
  have hnodup : (IR.Numbering.collect (f.interface types).parameters
      (.label (f.interface types).next :: rest)).Nodup := by
    -- The parameters come first, then the label, and the locals of the code are drawn behind it.
    have hall := (Draws.one (f.interface types).next).append hdraws
    rw [IR.Numbering.collect, hi.registers]
    refine List.nodup_append.2 ⟨List.nodup_range, hall.2.1, fun a ha b hb => ?_⟩
    exact Nat.ne_of_lt ((List.mem_range.1 ha).trans_le (hall.2.2 b hb).1)
  obtain ⟨p, hp, hflattens, hwellFormed, hrunnable⟩ :=
    IR.flatten_wellFormed f.represent hi.operands (List.Subset.refl _) hlaid hnodup
  rw [assemble, hp]
  refine ⟨?_, .inside hbody hcode hflattens hwellFormed, fun _ => hrunnable⟩
  rw [← hi.prototype, hflattens.name, hflattens.returnType, hflattens.arguments, List.map_map]
  rfl

/-- **A function is compiled without breaking a promise**, and its procedure is well-formed. -/
theorem compileFunction_yields
    (hctx : ∀ returnType slot, catalog.Usable returnType → Context.Sound env ⟨catalog, registry, returnType, slot⟩)
    (options : Options) :
    f.Yields env catalog registry options types (compileFunction catalog registry options f).procedure := by
  unfold compileFunction
  split
  · next habs => exact habs
  simp only [Function.linkedSignature, hf.signature]
  split
  · next hbody => exact assemble_external hf hbody options
  rename_i body hbody
  have hlaid := Function.lower_laid hf hallots (hctx _ _ hf.result) options hbody
  split
  · next code path hcode => exact assemble_body hf hallots (hctx _ _ hf.result) hbody hcode
  rename_i e path he
  rw [show f.lower catalog registry options types body = .error e path from he] at hlaid
  exact hlaid

end Linked

theorem isAbstract_of_compiled {options p} (h : (compileFunction catalog registry options f).procedure = .ok (some p)) :
    f.isAbstract = false := by
  grind [compileFunction]

end Lowering
