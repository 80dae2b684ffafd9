import Lowering.Proofs.Function.Compile
import Lowering.Proofs.Machine.Replacing
import Lowering.Proofs.Meaning.Limits
import Lowering.Proofs.Simulation.Entry
/-!
# Calling a procedure does what calling its function means

The code of a function is run with the locals it was lowered with (`IR.Flattens.original`), and then with those it was
given when it was flattened. A call depends on the calls that are made on the way, which may nest less deep; so by
induction on that depth all calls of a program do what they mean (`Program.serves`), and so does a run on a fresh
machine (`Program.runFresh_eq`).
-/

namespace Lowering

open List
open IR (Block Code Local Numbering Procedure)
open Meaning

/-! ### Arguments that arrive -/

theorem Registers.arguments_bind
    (hregs : ∀ a ∈ parameters, ∃ id, a.value = .register id)
    (hnodup : (parameters.filterMap fun a => a.value.register?).Nodup) (hlen : parameters.length = values.length)
    (R : Registers) : Forall₂ (fun a s => (R.bind parameters values).argument a = .ok s) parameters values := by
  induction parameters generalizing R values with
  | nil =>
    obtain rfl : values = [] := length_eq_zero_iff.1 hlen.symm
    exact .nil
  | cons a parameters ih =>
    rcases values with _ | ⟨v, values⟩
    · cases hlen
    obtain ⟨⟨id, ha⟩, hrest⟩ := forall_mem_cons.1 hregs
    obtain ⟨ty, o⟩ := a
    obtain rfl : o = .register id := ha
    have hnodup : id ∉ parameters.filterMap (fun a => a.value.register?) ∧
        (parameters.filterMap fun a => a.value.register?).Nodup := by
      simpa only [IR.Operand.register?, filterMap_cons, nodup_cons] using hnodup
    rw [Registers.bind]
    refine .cons ?_ (ih hrest hnodup.2 (Nat.succ.inj hlen) _)
    refine Registers.argument_register ?_
    rw [get?_bind_of_not_mem values hnodup.1, Registers.get?_set_self]

section Incoming

variable {parameters : List Parameter} {types : List TypeRef}

theorem incomingFrom_names (h : types.length = parameters.length) (start : Local) :
    (incomingFrom start parameters types).map Incoming.name = parameters.map Parameter.name ∧
      (incomingFrom start parameters types).map Incoming.ty = types := by
  induction parameters generalizing types start with
  | nil =>
    obtain rfl : types = [] := length_eq_zero_iff.1 h
    exact ⟨rfl, rfl⟩
  | cons p parameters ih =>
    rcases types with _ | ⟨t, types⟩
    · cases h
    obtain ⟨hnames, htypes⟩ := ih (Nat.succ.inj h) (start + 1)
    simp [incomingFrom, hnames, htypes]

end Incoming

variable {c : Catalog} {types : Signature} {M : Memory} {vs : List Value} {low high slot : Nat} {ss : List Scalar}
  {t : TypeRef}

theorem Function.Linked.incoming {f : Function} (hf : f.Linked c types) :
    (f.interface types).incoming.map Incoming.name = f.source.parameters.map Parameter.name ∧
      (f.interface types).incoming.map Incoming.ty = types.parameters ∧
      ∀ p ∈ (f.interface types).incoming, ∃ id, p.value = .register p.ty.irType id := by
  have hnames (start : Local) := incomingFrom_names hf.arity start
  unfold Function.interface Interface.ofSignature
  dsimp only
  split
  · exact ⟨(hnames 1).1, (hnames 1).2, fun p hp => (mem_incomingFrom hp).2⟩
  · exact ⟨(hnames 0).1, (hnames 0).2, fun p hp => (mem_incomingFrom hp).2⟩

theorem Passed.of_scalars (h : ∀ v ∈ vs, v.Fits c ∧ v.isStruct = false) (low : Nat) :
    Passed c M low low vs (vs.map Value.scalar) := by
  induction vs with
  | nil => exact .nil (Nat.le_refl low)
  | cons v vs ih =>
    obtain ⟨⟨hv, hscalar⟩, hvs⟩ := forall_mem_cons.1 h
    exact .scalar hv hscalar (ih hvs)

theorem Passed.length_eq (h : Passed c M low high xs ss) : ss.length = xs.length := by
  induction h with
  | nil => rfl
  | scalar _ _ _ ih | struct _ _ _ _ _ ih => simp_all

theorem Function.interface_returnSlot (f : Function) (types : Signature) : (f.interface types).returnSlot =
    if types.returnType.isLinear then some (.register types.returnType.irType 0) else none := by
  grind [Function.interface, Interface.ofSignature]

theorem Function.Linked.length_parameters {f : Function} (hf : f.Linked c types) (slot : Nat) :
    (f.interface types).parameters.length = (slotOf types.returnType slot).length + types.parameters.length := by
  have hincoming := congrArg List.length hf.incoming.2.1
  rw [length_map] at hincoming
  rw [Interface.parameters, length_append, length_map, hincoming, f.interface_returnSlot, slotOf]
  split <;> rfl

/-- The registers that a procedure begins with: the address for a linear result, and what was handed over. -/
theorem Function.Linked.arrive {f : Function} (hf : f.Linked c types) (slot : Nat)
    (hlen : ss.length = types.parameters.length) {R : Registers}
    (hR : R = .bind [] (f.interface types).parameters (slotOf types.returnType slot ++ ss)) :
    Forall₂ (fun p s => R.argument p.value = .ok s) (f.interface types).incoming ss ∧
      (types.returnType.isLinear = true →
        ∃ a, (f.interface types).returnSlot = some a ∧ R.argument a = .ok (.address slot)) ∧
      ∀ last, R.Blank ((f.interface types).next + 1) last := by
  have hfits : Interface.Fits c f types (f.interface types) := Interface.ofSignature_fits hf
  have hall : Forall₂ (fun a s => R.argument a = .ok s) (f.interface types).parameters
      (slotOf types.returnType slot ++ ss) := by
    rw [hR]
    refine Registers.arguments_bind hfits.operands (hfits.registers ▸ nodup_range) ?_ []
    rw [length_append, hlen, hf.length_parameters]
  have hblank : ∀ last, R.Blank ((f.interface types).next + 1) last := fun last id hid _ => by
    rw [hR, Registers.get?_bind_of_not_mem]
    · rfl
    · rw [hfits.registers, mem_range]
      omega
  rw [Interface.parameters, slotOf, f.interface_returnSlot] at hall
  rw [f.interface_returnSlot]
  cases hlin : types.returnType.isLinear with
  | true =>
    simp_all
  | false =>
    simp_all

/-! ### Procedures with the locals of their code -/

/-- The procedure with the locals that its code was lowered with. -/
theorem IR.Flattens.original {env name returnType parameters code p} (h : IR.Flattens name returnType parameters code p)
    (hp : p.WellFormed env) :
    ∃ p0 : Procedure, p0.Orderly ∧ IR.unparse p0.blocks = code ∧
      p0.Renames (Numbering.collect parameters code).place (· ∈ Numbering.collect parameters code) p := by
  obtain ⟨original, hcode, hblocks⟩ := IR.exists_original h.code
  refine ⟨{ p with blocks := original }, ⟨?_, ?_⟩, hcode, hblocks, ?_⟩
  · have hlabels : p.blocks.map IR.Block.label =
        (original.map IR.Block.label).map (Numbering.collect parameters code).place := by
      rw [map_map]
      exact (forall₂_eq_eq_eq ▸ forall₂_map_left_iff.2 (forall₂_map_right_iff.2
        (hblocks.flip.imp fun b b0 hb => hb.1)))
    exact .of_map _ (hlabels ▸ hp.labels_nodup)
  · intro b0 hb0 i hi
    obtain ⟨b, hb, -, hinstrs⟩ := exists_right hblocks hb0
    rw [← IR.Instruction.isLabel_rename (Numbering.collect parameters code).place]
    exact (hp.closed b hb).isLabel _ (hinstrs ▸ mem_map_of_mem hi)
  intro b hb
  have hmem : ∀ id ∈ b.label :: IR.definitions b.instructions, id ∈ IR.definitions code := by
    intro id hid
    rw [← hcode, IR.definitions_unparse]
    exact mem_flatMap.2 ⟨b, hb, hid⟩
  exact ⟨mem_append_right _ (hmem _ (.head _)), fun id hid => mem_append_right _ (hmem id (.tail _ hid))⟩

/-- Where a procedure begins that has the locals of its code. -/
def Site.start (program : IR.Module) (p0 : Procedure) (entry : Local) (callers : List Caller) : Site :=
  ⟨program, ⟨p0, entry, [], none, []⟩, callers⟩

/-- The frame that begins a procedure goes together with one that has the locals of the code. -/
theorem Frame.enter_renames (hρ : ∀ a b, D a → ρ a = ρ b → a = b)
    (h : p0.Renames ρ D p) (horderly : p0.Orderly) {rest : Code} (hcode : IR.unparse p0.blocks = .label entry :: rest)
    (hparams : p.parameters = parameters.map (·.rename ρ))
    (hregs : ∀ id ∈ parameters.filterMap fun a => a.value.register?, D id) (program : IR.Module) (callers : List Caller)
    (values : List Scalar) : ∃ F, Frame.enter p values = .ok F ∧
      Frame.Renames ρ D ((Site.start program p0 entry callers).holding (.bind [] parameters values) rest) F := by
  rcases hblocks0 : p0.blocks with _ | ⟨b0, bs0⟩
  · simp_all
  have hblocks := h.blocks
  rw [hblocks0] at hcode hblocks
  rw [IR.unparse_cons, cons_append] at hcode
  obtain ⟨b, bs, ⟨hlabel, hinstrs⟩, -, hp⟩ := forall₂_cons_left_iff.1 hblocks
  obtain ⟨hentry, hrest⟩ := List.cons.inj hcode
  obtain rfl : b0.label = entry := IR.Instruction.label.inj hentry
  obtain ⟨hD, hdefs⟩ := h.locals b0 (hblocks0 ▸ mem_cons_self ..)
  have hplain := horderly.plain b0 (hblocks0 ▸ mem_cons_self ..)
  have huntil : rest.untilLabel = b0.instructions := by
    rw [← hrest, IR.Code.untilLabel_append hplain, IR.Code.untilLabel_unparse, append_nil]
  refine ⟨⟨p, b.label, b.instructions, none, .bind [] p.parameters values⟩, ?_, ?_⟩
  · rw [Frame.enter, hp]
  rw [hparams]
  refine ⟨h, ⟨hlabel, hD⟩, ?_, ⟨rfl, nofun⟩, Registers.Renames.bind hρ .nil hregs values⟩
  simp_all [Site.holding]

/-! ### Procedures of functions -/

/-- Where the body of a function is lowered and its code is run. -/
def Function.scene (f : Function) (types : Signature) (m : IR.Module) (c : Catalog) (r : Registry)
    (callers : List Caller) (call : Function → List Value → Eval (Option Value)) (numbers : Binary64 → Prop) : Scene :=
  ⟨⟨c, r, types.returnType, (f.interface types).returnSlot⟩, m, callers, call, numbers⟩

theorem Moment.Answers.rename {m callers ρ D}
    (hρ : ∀ a b, D a → ρ a = ρ b → a = b) {F0 F} (h : F0.Renames ρ D F) {x}
    (hexpected : Ensures x M.size (fun _ _ => True) fun stop _ => stop.isExpected = true)
    (hanswers : Moment.Answers m c t low slot ⟨F0, callers, M⟩ callers x) :
    Moment.Answers m c t low slot ⟨F, callers, M⟩ callers x := by
  have hstart : Progress.Replaces ρ D callers (.running F0 callers) (.running F callers) := .running ⟨.other, h⟩ .nil
  refine Ensures.mono (Ensures.and hanswers hexpected) (fun result used _ hok => ?_) fun stop _ _ hstop => ?_
  · obtain ⟨⟨out, M', hsize, hexits, hrest⟩, -⟩ := hok
    refine ⟨out, M', hsize, hexits.rename hρ hstart ?_, hrest⟩
    rfl
  obtain ⟨⟨e, rfl, hhalts⟩, he⟩ := hstop
  refine ⟨e, rfl, hhalts.rename hρ hstart ?_ (by simpa [Stop.isExpected] using he)⟩
  rfl

section Procedure

variable {env : IR.Setting} {m : IR.Module} {c : Catalog} {r : Registry} {callers : List Caller}
  {call : Function → List Value → Eval (Option Value)} {numbers : Binary64 → Prop} {options : Options} {f : Function}
  {types : Signature} {body : Block} {code : Code} {path : Path} {p : Procedure}

/-- **The procedure of a function does what the function means.** -/
theorem Function.answers (hk : (f.scene types m c r callers call numbers).Sound) (hf : f.Linked c types)
    (hcode : f.lower c r options types body = .ok code path)
    (hflattens : IR.Flattens f.represent (f.interface types).returnType (f.interface types).parameters code p)
    (hwellFormed : p.WellFormed env) (hlits : ∀ l ∈ body.literals, l.Admitted numbers)
    (htypes : ∀ ty ∈ body.writtenTypes, ty.isDirect = true) (hM : M.Proper) (hty : vs.map Value.ty = types.parameters)
    (hpassed : Passed c M low high vs ss) (hhigh : high ≤ M.size)
    (hslot : types.returnType.isLinear = true →
      high ≤ slot ∧ ∃ size, c.sizeOf? types.returnType = some size ∧ M.Has slot size)
    (hexpected : Ensures (Setting.evalBody ⟨c, r, some Memory.limit, call⟩ f body vs) M.size (fun _ _ => True)
      fun stop _ => stop.isExpected = true) :
    ∃ F, Frame.enter p (slotOf types.returnType slot ++ ss) = .ok F ∧
      Moment.Answers m c types.returnType low slot ⟨F, callers, M⟩ callers
        (Setting.evalBody ⟨c, r, some Memory.limit, call⟩ f body vs) := by
  set k := f.scene types m c r callers call numbers
  obtain ⟨hnames, hincoming, hvals⟩ := hf.incoming
  obtain ⟨hss, haddr, hblank⟩ := hf.arrive slot (hpassed.length_eq.trans (by rw [← hty, length_map])) rfl
  have hentry :=
    Attains.of_ok (@lowerEntry_answers k ((f.interface types).start options) hk rfl (Nat.lt_succ_self _) rfl
    (f.interface types).incoming hvals f body hlits htypes hnames) hcode
  obtain ⟨rest, rfl, hentry⟩ := hentry
  obtain ⟨p0, horderly, hunparse, hrenames⟩ := hflattens.original hwellFormed
  obtain ⟨F, henter, hframe⟩ := Frame.enter_renames (fun _ _ => Numbering.place_inj) hrenames horderly hunparse
    hflattens.arguments (fun id hid => mem_append_left _ hid) m callers (slotOf types.returnType slot ++ ss)
  refine ⟨F, henter, Moment.Answers.rename (fun _ _ => Numbering.place_inj) hframe hexpected ?_⟩
  refine hentry ⟨rfl, rfl⟩ horderly ⟨[_], hunparse.symm⟩ rfl hM (hincoming.trans hty.symm) hss hpassed hhigh
    (fun hlin => (hslot hlin).1) (hblank _) fun hlin => ⟨haddr hlin, (hslot hlin).2⟩

end Procedure

theorem Returned.eq_scalar (hret : Returned c M slot t result out) (hlin : t.isLinear = false) :
    out = result.map Value.scalar := by
  cases hvoid : t.isVoid with
  | true =>
    rw [Returned, hvoid] at hret
    rw [hret.1, hret.2]
    rfl
  | false =>
    obtain ⟨x, rfl, -, rfl, hout⟩ := hret.of_not_void hvoid
    rw [Value.isLinear_ty] at hlin
    simp_all

theorem Returned.deliver (hret : Returned c M slot t result out)
    (hdest : ∀ r, destination = some r → t.isLinear = false ∧ t.isVoid = false) (frame : Frame) :
    ∃ frame', frame.deliver destination out = .ok frame' := by
  rcases destination with _ | id
  · exact ⟨frame, rfl⟩
  obtain ⟨hlin, hvoid⟩ := hdest id rfl
  obtain ⟨x, rfl, -⟩ := hret.of_not_void hvoid
  exact ⟨_, by rw [hret.eq_scalar hlin]; rfl⟩

/-! ### Programs -/

/-- A program that has the procedures of functions. -/
structure Realizes (m : IR.Module) (c : Catalog) (r : Registry) : Prop where
  laid : c.LaidIn m
  direct : c.Direct
  settled : c.Settled
  registry : r.Sound c
  exact : ∀ f ∈ r.functions, f.source.Exact
  memcpy : ∀ f ∈ r.functions, f.represent ≠ IR.memcpy
  inside : ∀ f ∈ r.functions, f.failed = false → ∀ types, f.Linked c types → ∀ body, f.source.body = some body →
    ∃ (env : IR.Setting) (options : Options) (p : Procedure), m.procedure? f.represent = some p ∧
      f.Emits env.toSurroundings c r options types p
  outside : ∀ f ∈ r.functions, f.failed = false → f.source.body = none →
    if f.source.external then ∃ p, m.procedure? f.represent = some p ∧
      p.external = true else m.procedure? f.represent = none
  types : ∀ f ∈ r.functions, ∀ body, f.source.body = some body → ∀ ty ∈ body.writtenTypes, ty.isDirect = true

section Begin

variable {m : IR.Module} {depth : Nat} {callee : String} {arguments : List Scalar} {p : Procedure}

/-- A call of a procedure with code goes into it, unless calls nest too deep. -/
theorem beginCall_inside (hname : callee ≠ IR.memcpy) (hp : m.procedure? callee = some p) (hext : p.external = false)
    (hlen : p.parameters.length = arguments.length) : beginCall m depth callee arguments =
      if callDepthLimit ≤ depth then throw .callDepth else some <$>
        (liftM (Frame.enter p arguments) : Effect Frame) := by
  unfold beginCall
  rw [if_neg hname]
  simp only [hp, hext, hlen, ne_eq, not_true_eq_false, if_false, Bool.false_eq_true]
  split <;> rfl

theorem beginCall_external (hname : callee ≠ IR.memcpy) (hp : m.procedure? callee = some p) (hext : p.external = true)
    (M : Memory) : beginCall m depth callee arguments M = .error (.external callee) M := by
  unfold beginCall
  rw [if_neg hname]
  simp only [hp, hext, if_true]
  rfl

theorem beginCall_unknown (hname : callee ≠ IR.memcpy) (hp : m.procedure? callee = none) (M : Memory) :
    beginCall m depth callee arguments M = .error (.unknownProcedure callee) M := by
  unfold beginCall
  rw [if_neg hname]
  simp only [hp]
  rfl

end Begin

namespace Realizes

variable {m : IR.Module} {c : Catalog} {r : Registry} (h : Realizes m c r) {callers : List Caller} {f : Function}
include h

theorem scene {call} (hserves : Serves m c r call callers) (hf : f ∈ r.functions) (types : Signature) :
    (f.scene types m c r callers call f.source.numbers).Sound :=
  ⟨h.laid, h.direct, h.settled, h.registry, hserves, (h.exact f hf).distinct⟩

/-- **A call begins as it should**: its code does what the call means, or there is none and the call fails as it
means. -/
theorem begin {levels depth : Nat} (hdepth : levels + depth = callDepthLimit)
    (hserves : ∀ n, levels = n + 1 → Serves m c r (callWithin c r (some Memory.limit) n) callers) (hf : f ∈ r.functions)
    (hfailed : f.failed = false) (hlinked : f.Linked c types) (hM : M.Proper) (hty : vs.map Value.ty = types.parameters)
    (hpassed : Passed c M low high vs ss) (hhigh : high ≤ M.size)
    (hslot : types.returnType.isLinear = true →
      high ≤ slot ∧ ∃ size, c.sizeOf? types.returnType = some size ∧ M.Has slot size) :
    (∃ F, beginCall m depth f.represent (slotOf types.returnType slot ++ ss) M = .ok (some F) M ∧
      Moment.Answers m c types.returnType low slot ⟨F, callers, M⟩ callers
        (callWithin c r (some Memory.limit) levels f vs)) ∨
    ∃ e, beginCall m depth f.represent (slotOf types.returnType slot ++ ss) M = .error e M ∧
      callWithin c r (some Memory.limit) levels f vs = throw (.fails e) := by
  have hname := h.memcpy f hf
  cases hbody : f.source.body with
  | none =>
    have houtside := h.outside f hf hfailed hbody
    refine .inr ⟨_, ?_, callWithin_none hbody levels vs⟩
    split at houtside
    · next hext =>
      obtain ⟨p, hp, hext'⟩ := houtside
      rw [if_pos hext]
      exact beginCall_external hname hp hext' M
    · next hext =>
      rw [if_neg hext]
      exact beginCall_unknown hname houtside M
  | some body =>
    obtain ⟨env, options, p, hp, hemits⟩ := h.inside f hf hfailed types hlinked body hbody
    cases hemits with
    | outside hnone => cases hnone.symm.trans hbody
    | @inside body' code path hbody' hcode hflattens hwellFormed =>
      obtain rfl : body' = body := Option.some.inj (hbody'.symm.trans hbody)
      have hlen : p.parameters.length = (slotOf types.returnType slot ++ ss).length := by
        rw [hflattens.arguments, length_map, hlinked.length_parameters slot, length_append, hpassed.length_eq,
          ← hty, length_map]
      have hbegin := @beginCall_inside m depth _ _ p hname hp hflattens.internal hlen
      rcases levels with _ | levels
      · rw [if_pos (by omega)] at hbegin
        exact .inr ⟨_, by rw [hbegin]; rfl, callWithin_zero hbody vs⟩
      rw [if_neg (by omega)] at hbegin
      have hexpected : Ensures (callWithin c r (some Memory.limit) (levels + 1) f vs) M.size (fun _ _ => True) _ :=
        callWithin_expected (some Memory.limit) (levels + 1) f vs M.size
      rw [callWithin_succ hbody] at hexpected ⊢
      have hlits : ∀ l ∈ body'.literals, l.Admitted f.source.numbers := fun l hl =>
        (h.exact f hf).admitted l (by rwa [FunctionDefinition.literals, hbody])
      obtain ⟨F, henter, hanswers⟩ := Function.answers (h.scene (hserves levels rfl) hf types) hlinked hcode hflattens
        hwellFormed hlits (h.types f hf _ hbody) hM hty hpassed hhigh hslot hexpected
      exact .inl ⟨F, by rw [hbegin, henter]; rfl, hanswers⟩

/-- Calls do what they mean, if those do that are made on the way. -/
theorem serves_of_deeper (hdepth : levels + (callers.length + 1) = callDepthLimit)
    (hdeeper : ∀ n caller, levels = n + 1 → Serves m c r (callWithin c r (some Memory.limit) n) (caller :: callers)) :
    Serves m c r (callWithin c r (some Memory.limit) levels) callers := by
  intro f hf hfailed types hlinked frame destination vs ss M low high slot hM hty hpassed hhigh hslot hdest
  obtain ⟨F, hbegin, hanswers⟩ | ⟨e, hbegin, hfails⟩ :=
    h.begin hdepth (fun n => hdeeper n ⟨frame, destination⟩) hf hfailed hlinked hM hty hpassed hhigh hslot
  · have hcall : call m frame callers destination f.represent (slotOf types.returnType slot ++ ss) M =
        .ok (.running F (⟨frame, destination⟩ :: callers)) M := by
      simp only [call, bind, EStateM.bind, hbegin]
      rfl
    refine Ensures.mono hanswers (fun result used _ hok => ?_) fun stop _ _ hstop => ?_
    · obtain ⟨out, M', hsize, hexits, hproper, hgrows, hbytes, hret⟩ := hok
      obtain ⟨frame', hdeliver⟩ := hret.deliver hdest frame
      exact ⟨M', out, frame', hsize, hproper, hgrows, hbytes, hret, hdeliver, ⟨F, _, M⟩, hcall, hexits.returns hdeliver⟩
    · obtain ⟨e, rfl, hhalts⟩ := hstop
      exact ⟨e, rfl, .inr ⟨⟨F, _, M⟩, hcall, hhalts⟩⟩
  rw [hfails]
  refine ⟨e, rfl, .inl ⟨M, ?_⟩⟩
  simp [call, bind, EStateM.bind, hbegin]

/-- **All calls do what they mean.** The induction is on how deep calls can still nest. -/
theorem serves (levels : Nat) : ∀ {callers}, levels + (callers.length + 1) = callDepthLimit →
    Serves m c r (callWithin c r (some Memory.limit) levels) callers := by
  induction levels with
  | zero => exact fun hdepth => h.serves_of_deeper hdepth nofun
  | succ levels ih =>
    refine fun {callers} hdepth => h.serves_of_deeper hdepth fun n caller hn => ?_
    grind

/-- **What a run on a fresh machine comes to**, where numbers are handed over and one is returned, or none. -/
theorem runFresh_eq (hf : f ∈ r.functions) (hfailed : f.failed = false) (hlinked : f.Linked c types)
    (hreturn : types.returnType.isLinear = false) (hfits : ∀ v ∈ vs, v.Fits c ∧ v.isStruct = false)
    (hty : vs.map Value.ty = types.parameters) :
    runFresh m f.represent (vs.map Value.scalar) = .error .stepLimit ∨
      Ensures (callWithin c r (some Memory.limit) callDepthLimit f vs) Memory.empty.size
        (fun result _ => runFresh m f.represent (vs.map Value.scalar) = .ok (result.map Value.scalar))
        fun stop _ => ∃ e, stop = .fails e ∧ runFresh m f.represent (vs.map Value.scalar) = .error e := by
  have hslot : slotOf types.returnType 0 = [] := if_neg (by simp_all)
  have hnone : types.returnType.isLinear = true →
      0 ≤ 0 ∧ ∃ size, c.sizeOf? types.returnType = some size ∧ Memory.empty.Has 0 size := by
    rw [hreturn]
    exact nofun
  have hbegin := h.begin (Nat.add_zero callDepthLimit) (fun n hn => h.serves n (by rw [length_nil]; omega)) hf hfailed
    hlinked Memory.proper_empty hty (Passed.of_scalars hfits 0) (Nat.zero_le _) hnone
  rw [hslot, nil_append] at hbegin
  obtain ⟨F, hbegin, hanswers⟩ | ⟨e, hbegin, hfails⟩ := hbegin
  · have hrun : runFresh m f.represent (vs.map Value.scalar) = (Moment.run m ⟨F, [], Memory.empty⟩ stepLimit).1 := by
      unfold runFresh Machine.call Machine.fresh
      rw [hbegin]
      rfl
    rw [hrun]
    refine or_iff_not_imp_left.2 fun hlimit => Ensures.mono hanswers (fun result used _ hok => ?_)
      fun stop _ _ hstop => ?_
    · obtain ⟨out, M', -, hexits, -, -, -, hret⟩ := hok
      rw [(hexits.halts.run stepLimit).resolve_left hlimit, hret.eq_scalar hreturn]
    · obtain ⟨e, rfl, hhalts⟩ := hstop
      exact ⟨e, rfl, (hhalts.run stepLimit).resolve_left hlimit⟩
  refine .inr ?_
  rw [hfails]
  refine ⟨e, rfl, ?_⟩
  unfold runFresh Machine.call Machine.fresh
  rw [hbegin]

end Realizes

end Lowering
