import Lowering.Proofs.Body.Places
/-!
# Expressions are lowered to straight, well-typed code

The main result is `lowerExpr_lowers`: lowering an expression breaks no promise, emits straight code from the point
it is at, and its value has the type in code that belongs to its type. Nothing is ever left to be run after a value was
used. The cases of an operation only combine what is known of its operands, each of which stays true behind the code of
the other.
-/

namespace Lowering

open List
open IR (Argument Code Setting Typing)

/-- A value that can be put into a register if there is one, or that is a call at least. -/
def IR.Value.Lends (env : Setting) (value : IR.Value) : Prop :=
  (value.resultType.isVoid = false → value.Feasible env) ∧
    ∀ returnType callee arguments, value = .call returnType callee arguments → env.calls callee

theorem IR.Value.Feasible.lends {value : IR.Value} (h : value.Feasible env) : value.Lends env :=
  ⟨fun _ => h, fun _ _ _ hcall => by subst hcall; exact h.2⟩

/-- The value of an expression has a type in code. -/
def Output.Fits (env : Setting) (Γ : Typing) (ty : IR.Ty) : Output → Prop
  | .bare argument => argument.Fits Γ ∧ argument.ty = ty
  | .compound value => (value.Typed env Γ ∧ value.resultType = ty) ∧ value.Lends env

/-- A lowered expression whose value is there behind its code, with nothing left to run. -/
structure Lowered.Sound (env : Setting) (Γ : Typing) (l : Lowered) : Prop where
  output : l.output.Fits env (Γ.past l.code) l.ty.irType
  epilog : l.epilog = []

/-- An operand whose value is there behind its code, with nothing left to run. -/
structure Ready.Sound (Γ : Typing) (r : Ready) : Prop where
  fits : r.argument.Fits (Γ.past r.code)
  type : r.argument.ty = r.ty.irType
  epilog : r.epilog = []

variable {env : Setting} {c : Catalog} {Γ Δ : Typing} {w w' w'' : Workspace} {ctx : Context} {code more : Code}
  {l : Lowered} {lhs rhs r : Ready} {span : Span} {kind : Primitive} {rs : List Ready} {es : List Expr}

/-! ### Operands -/

theorem Lowered.ready_emits (h : Emits env c Γ w l.code w') (hl : l.Sound env Γ) (span : Span) :
    Secures (l.ready span) w' fun r w'' =>
      Emits env c Γ w r.code w'' ∧ r.Sound Γ ∧ r.ty = l.ty := by
  obtain ⟨hout, hepilog⟩ := hl
  unfold Lowered.ready
  split
  · next argument ho =>
    rw [ho] at hout
    exact .pure ⟨h, ⟨hout.1, hout.2, hepilog⟩, rfl⟩
  rename_i value ho
  rw [ho] at hout
  split
  · exact .reject
  rename_i hvoid
  refine .bind (.fresh (.pure ?_))
  have hfeasible := hout.2.1 (by simpa using hvoid)
  have hset := h.append (((Supplies.set _ value hout.1.1 hfeasible).emits h.sound))
  refine ⟨hset, ⟨?_, hout.1.2, hepilog⟩, rfl⟩
  exact Typing.mem_past_append.2 (Typing.mem_past_set hfeasible.isRaw _)

/-- What lowering an expression promises. -/
def Lowers (env : Setting) (c : Catalog) (Γ : Typing) (w : Workspace) (x : Work Lowered) : Prop :=
  Secures x w fun l w' => Emits env c Γ w l.code w' ∧ l.Sound env Γ

/-- Lowering an expression, putting its value into an operand, and going on from there. -/
theorem Lowers.ready_bind {x} (h : Lowers env c Γ w x) (span : Span) {β : Type} {k : Ready → Work β} {Q}
    (hk : ∀ r w', Emits env c Γ w r.code w' → r.Sound Γ → Secures (k r) w' Q) :
    Secures (x >>= fun l => l.ready span >>= k) w Q :=
  Secures.bind (h.mono fun _ _ _ hl =>
    Secures.bind ((Lowered.ready_emits hl.1 hl.2 span).mono fun r w' _ hr => hk r w' hr.1 hr.2.1))

/-! ### Constants and places -/

theorem lowerString_lowers (hctx : ctx.Sound env) (h : w.Sound c Γ) (text : String) :
    Lowers env c Γ w (lowerString text) := by
  refine .bind (.fresh (.bind (.fresh (.pure ?_))))
  obtain ⟨length, hlen⟩ : ∃ length, (text.toUTF8.data.toList ++ [0]).length = length + 1 :=
    ⟨text.toUTF8.data.toList.length, length_append⟩
  generalize text.toUTF8.data.toList ++ [0] = bytes at hlen
  have halloc : Supplies env Γ w _ _ :=
    .set _ (.alloc ⟨.array bytes.length (.int 8), 0⟩) trivial ⟨fun _ => trivial, hctx.bytes _⟩
  have hstore :=
    halloc.append (.effect _ (.store (.register (IR.Ty.pointerTo ⟨.array bytes.length (.int 8), 0⟩) w.fresh)
    ⟨⟨.array bytes.length (.int 8), 0⟩, .bytes bytes⟩)
    ⟨⟨.head _, rfl, rfl⟩, .inr ⟨bytes, rfl⟩⟩ rfl)
  have hcast := hstore.append (.set _
    (.bitcast (.register (IR.Ty.pointerTo ⟨.array bytes.length (.int 8), 0⟩) w.fresh) .bytePointer)
    (.head _) ⟨⟨length, by rw [← hlen]; rfl⟩, rfl⟩)
  refine ⟨hcast.emits h, ⟨?_, rfl⟩, rfl⟩
  exact .tail _ (.head _)

theorem lowerConstant_lowers (hctx : ctx.Sound env) (h : w.Sound c Γ) (constant : Constant) :
    Lowers env c Γ w (lowerConstant constant) := by
  unfold lowerConstant
  split
  · split
    · exact .reject
    · exact .pure ⟨.nil h, ⟨⟨32, rfl⟩, rfl⟩, rfl⟩
  · exact .pure ⟨.nil h, ⟨⟨64, rfl⟩, rfl⟩, rfl⟩
  · exact .pure ⟨.nil h, ⟨rfl, rfl⟩, rfl⟩
  · exact lowerString_lowers hctx h _

theorem lowerPlace_lowers (hctx : ctx.Sound env) (h : w.Sound ctx.catalog Γ) (p : Place) :
    Lowers env ctx.catalog Γ w (lowerPlace ctx p) := by
  refine .bind (.get (.bind (.check (Scope.locate_blames _ _ _) fun l hl => ?_)))
  refine .bind ((walkTo_emits hctx h (Scope.locate_inSight hl) true).mono fun result w _ hres => ?_)
  obtain ⟨hemits, hfits, htype⟩ := hres
  exact .pure ⟨hemits, ⟨hfits, htype⟩, rfl⟩

/-! ### Operations -/

theorem operandType_eq_ok {lhs rhs : TypeRef} (h : operandType operation lhs rhs span = .ok kind) :
    lhs = .primitive kind ∧ rhs = .primitive kind := by
  unfold operandType at h
  dsimp only at h
  split at h
  · next kind' hkind =>
    split at h
    · cases h
    split at h
    · cases h
    rename_i hsame
    cases h
    have hlhs := Catalog.primitive?_eq_some hkind
    exact ⟨hlhs, (not_not.1 hsame).symm.trans hlhs⟩
  · cases h

theorem Ready.combine_sound (hlhs : lhs.Sound Γ) (hrhs : rhs.Sound (Γ.past lhs.code)) {value : IR.Value} {ty : TypeRef}
    (htype : value.resultType = ty.irType) (hfeasible : value.Feasible env)
    (hvalue : ∀ Δ, lhs.argument.Fits Δ → rhs.argument.Fits Δ → value.Typed env Δ) :
    (lhs.combine rhs value ty).Sound env Γ where
  output := by
    refine ⟨⟨hvalue _ ?_ ?_, htype⟩, hfeasible.lends⟩
    · exact hlhs.fits.mono fun x hx => Typing.mem_past_append.2 (Typing.subset_past _ _ hx)
    · exact hrhs.fits.mono fun x hx => Typing.mem_past_append.2 hx
  epilog := by simp [combine, hlhs.epilog, hrhs.epilog]

theorem Ready.Sound.operand_fits (h : r.Sound Γ) (hty : r.ty = .primitive kind) (hfits : r.argument.Fits Δ) :
    r.argument.value.Fits Δ kind.irType := by
  unfold Argument.Fits at hfits
  rwa [h.type, hty] at hfits

theorem Primitive.irType_isNumeric (h : kind ≠ .void) : kind.irType.IsNumeric := by
  refine ⟨rfl, .inr ⟨kind.bits, by cases kind <;> decide, ?_⟩⟩
  cases kind <;> first | exact .inl rfl | exact .inr rfl | exact absurd rfl h

theorem Primitive.ne_void_of_isNumeric (h : kind.isNumeric = true) : kind ≠ .void := by
  rintro rfl
  cases h

theorem arithmetic_sound {operator} (h : arithmetic operator lhs rhs span = .ok l) (hlhs : lhs.Sound Γ)
    (hrhs : rhs.Sound (Γ.past lhs.code)) : l.code = lhs.code ++ rhs.code ∧ l.Sound env Γ := by
  obtain ⟨kind, hkind, h⟩ := bind_eq_ok h
  obtain ⟨hl, hr⟩ := operandType_eq_ok hkind
  split at h
  · cases h
  rename_i hnum
  cases h
  have hnum : kind.isNumeric = true := by simpa using hnum
  have hfeasible : (IR.Value.binary operator.irOperator kind.mode kind.irType lhs.argument.value
      rhs.argument.value).Feasible env :=
    ⟨Primitive.irType_isNumeric (Primitive.ne_void_of_isNumeric hnum), fun hmode =>
      ⟨by cases operator <;> decide, by cases kind <;> first | rfl | cases hmode⟩⟩
  refine ⟨rfl, Ready.combine_sound hlhs hrhs (by rw [hl]; rfl) hfeasible fun Δ hlhs' hrhs' => ?_⟩
  exact ⟨hlhs.operand_fits hl hlhs', hrhs.operand_fits hr hrhs'⟩

theorem comparison_sound {operator} (h : comparison operator lhs rhs span = .ok l) (hlhs : lhs.Sound Γ)
    (hrhs : rhs.Sound (Γ.past lhs.code)) : l.code = lhs.code ++ rhs.code ∧ l.Sound env Γ := by
  obtain ⟨kind, hkind, h⟩ := bind_eq_ok h
  obtain ⟨hl, hr⟩ := operandType_eq_ok hkind
  split at h
  · next predicate hpred =>
    cases h
    have hscalar : kind.irType.IsNumeric := by
      refine Primitive.irType_isNumeric ?_
      rintro rfl
      cases operator <;> cases hpred
    have hfloat : predicate.isFloat = true → kind.irType.isInt = false := by
      revert hpred
      cases kind <;> cases operator <;> rintro ⟨⟩ <;> decide
    exact ⟨rfl, Ready.combine_sound hlhs hrhs rfl ⟨hscalar, hfloat⟩ fun Δ hlhs' hrhs' =>
      ⟨hlhs.operand_fits hl hlhs', hrhs.operand_fits hr hrhs'⟩⟩
  · cases h

theorem Ready.expectBool_eq_ok (h : r.expectBool span = .ok ()) : r.ty = .primitive .bool := by
  unfold Ready.expectBool at h
  split at h
  · next hbool => exact Catalog.primitive?_eq_some hbool
  · cases h

theorem isNumeric_bool : IR.Ty.bool.IsNumeric := ⟨rfl, .inr ⟨1, by decide, .inl rfl⟩⟩

theorem logical_sound (operator : LogicalOperator) (hlhs : lhs.Sound Γ) (hrhs : rhs.Sound (Γ.past lhs.code))
    (hl : lhs.ty = .primitive .bool) (hr : rhs.ty = .primitive .bool) :
    (logical operator lhs rhs).Sound env Γ :=
  Ready.combine_sound hlhs hrhs (by rw [hl]; rfl) ⟨isNumeric_bool, fun hmode => by cases hmode⟩ fun _ hlhs' hrhs' =>
    ⟨hlhs.operand_fits hl hlhs', hrhs.operand_fits hr hrhs'⟩

theorem negation_sound {operand : Ready} (h : operand.Sound Γ) (hty : operand.ty = .primitive .bool) :
    (negation operand).Sound env Γ where
  output := ⟨⟨⟨h.operand_fits hty h.fits, rfl⟩, by simp only [negation, hty]; rfl⟩,
    IR.Value.Feasible.lends ⟨isNumeric_bool, fun hmode => by cases hmode⟩⟩
  epilog := h.epilog

theorem Primitive.conversion_suits (source target : Primitive) :
    ∀ how ∈ source.conversion target, how.suits source.irType target.irType = true := by
  cases source <;> cases target <;> decide

/-- Two numeric types without a conversion between them have one representation. -/
theorem Primitive.irType_of_conversion_eq_none {source target : Primitive} (hsrc : source.isNumeric = true)
    (htgt : target.isNumeric = true) (h : source.conversion target = none) : target.irType = source.irType := by
  revert hsrc htgt h
  cases source <;> cases target <;> decide

theorem convert_sound (h : operand.Sound Γ)
    (hty : operand.ty = .primitive source) (hsrc : source.isNumeric = true) (htgt : target.isNumeric = true) :
    (convert operand source target).Sound env Γ := by
  refine ⟨?_, h.epilog⟩
  unfold convert
  split
  · next hconversion =>
    refine ⟨⟨h.fits, rfl⟩, IR.Value.Feasible.lends ⟨?_, rfl, ?_⟩⟩ <;> rw [h.type, hty]
    · exact Primitive.irType_isNumeric (Primitive.ne_void_of_isNumeric hsrc)
    · exact Primitive.conversion_suits source target _ hconversion
  rename_i hnone
  refine ⟨?_, rfl⟩
  have hfits := h.operand_fits hty h.fits
  rwa [← Primitive.irType_of_conversion_eq_none hsrc htgt hnone] at hfits

/-! ### Calls -/

/-- Operands one after another, each behind the code of those before it. -/
def OperandsSound (env : Setting) : Typing → List Ready → Prop
  | _, [] => True
  | Γ, r :: rest => (IR.Straight env Γ r.code ∧ r.Sound Γ) ∧ OperandsSound env (Γ.past r.code) rest

theorem Ready.Sound.mono (h : r.Sound Γ) (hsub : Γ ⊆ Δ) : r.Sound Δ :=
  ⟨h.fits.mono (Typing.past_mono hsub _), h.type, h.epilog⟩

theorem OperandsSound.mono (h : OperandsSound env Γ rs) (hsub : Γ ⊆ Δ) : OperandsSound env Δ rs := by
  induction rs generalizing Γ Δ with
  | nil => trivial
  | cons r rest ih => exact ⟨⟨h.1.1.mono hsub, h.1.2.mono hsub⟩, ih h.2 (Typing.past_mono hsub _)⟩

theorem OperandsSound.epilog (h : OperandsSound env Γ rs) : rs.flatMap Ready.epilog = [] := by
  induction rs generalizing Γ with
  | nil => rfl
  | cons r rest ih => rw [flatMap_cons, h.1.2.epilog, ih h.2, nil_append]

theorem passValue_supplies (hctx : ctx.Sound env) (w : Workspace) (hr : r.Sound Γ) (hty : ctx.catalog.Usable r.ty) :
    Secures (passValue r) w fun result w' => ∃ clone, result.1 = r.code ++ clone ∧
      Supplies env (Γ.past r.code) w clone w' ∧ result.2.Fits (Γ.past result.1) ∧ result.2.ty = r.ty.irType := by
  unfold passValue
  split
  · exact .pure ⟨[], (append_nil _).symm, .nil env _ w, hr.fits, hr.type⟩
  · next ref hlin _ =>
    have hptr := hr.type.trans (TypeRef.irType_of_linear? hlin)
    refine .bind ((cloneStructure_supplies hctx w (hctx.linear hty hlin) hr.fits hptr).mono fun result w' _ hres => ?_)
    obtain ⟨hclone, hfits, htype⟩ := hres
    refine .pure ⟨result.1, rfl, hclone, hfits.mono fun x hx => Typing.mem_past_append.2 hx, ?_⟩
    rw [htype, TypeRef.irType_of_linear? hlin]
  · exact .pure ⟨[], (append_nil _).symm, .nil env _ w, hr.fits, hr.type⟩

theorem flushArgument_straight (env : Setting) {s : Scope} (hs : ∀ v ∈ s.vars, v.Sound c Γ)
    (hrefines : s.Refines w.scope) (e : Expr) :
    Secures (flushArgument e) w fun code w' =>
      IR.Straight env Γ code ∧ IR.definitions code = [] ∧ w.scope.Refines w'.scope ∧ w'.fresh = w.fresh ∧
        ∀ Δ, w.Sound c Δ → w'.Sound c Δ := by
  unfold flushArgument
  split
  · refine .bind (.get (.bind (.check (Scope.lookup_blames _ _) fun id hid => ?_)))
    obtain ⟨v, hv, -⟩ := Scope.find?_eq_some (Scope.lookup_eq_ok hid)
    exact flushVariable_straight env hs hrefines hv
  · exact .pure ⟨.nil Γ, rfl, .refl _, rfl, fun _ hw => hw⟩

/-- What handing operands over comes to: their code with copies and write-backs in between. -/
structure HandsOver (env : Setting) (c : Catalog) (Γ : Typing) (w : Workspace) (rs : List Ready) (code : Code)
    (values : List Argument) (w' : Workspace) : Prop where
  straight : IR.Straight env Γ code
  fits : ∀ a ∈ values, a.Fits (Γ.past code)
  types : values.map Argument.ty = rs.map fun r => r.ty.irType
  sound : w'.Sound c (Γ.past code)
  refines : w.scope.Refines w'.scope
  drawn : ∃ ids, (IR.definitions code).Perm (IR.definitions (rs.flatMap Ready.code) ++ ids) ∧
    Draws w.fresh w'.fresh ids

/-- **Handing operands over.** The w is in good order behind the code of all operands; the write-backs between them
rely only on the scope `s` that was there before, which is in good order at the very beginning. -/
theorem passValues_passes (hctx : ctx.Sound env) {s : Scope} (hs : ∀ v ∈ s.vars, v.Sound ctx.catalog Γ)
    (hrefines : s.Refines w.scope) (hrs : OperandsSound env Γ rs) (htypes : ∀ r ∈ rs, ctx.catalog.Usable r.ty)
    (h : w.Sound ctx.catalog (Γ.past (rs.flatMap Ready.code))) (hlen : rs.length = es.length) :
    Secures (passValues rs es) w
      fun result w' => HandsOver env ctx.catalog Γ w rs result.1 result.2 w' := by
  induction rs generalizing es Γ w with
  | nil =>
    cases es with
    | cons => cases hlen
    | nil =>
      exact .pure ⟨.nil Γ, by simp, rfl, h, .refl _, [], .nil, .nil le_rfl⟩
  | cons r rest ih =>
    rcases es with _ | ⟨e, es⟩
    · cases hlen
    obtain ⟨hty, htypes⟩ := forall_mem_cons.1 htypes
    refine .bind ((passValue_supplies hctx w hrs.1.2 hty).mono fun passed w1 _ hpassed => ?_)
    obtain ⟨code, value⟩ := passed
    obtain ⟨clone, rfl, hclone, hfits, htype⟩ := hpassed
    have hrefines' : s.Refines w1.scope := hclone.scope ▸ hrefines
    refine .bind ((flushArgument_straight env hs hrefines' e).mono fun flushed w' _ hflushed => ?_)
    obtain ⟨hstore, hnothing, hscope, hfresh, hsound⟩ := hflushed
    have hnone := IR.kept_eq_nil hnothing
    -- the rest is handed over behind the code of this operand
    have hsub : Γ ⊆ Γ.past (r.code ++ clone ++ flushed) := Typing.subset_past ..
    have hsub' : Γ.past r.code ⊆ Γ.past (r.code ++ clone ++ flushed) := fun x hx => by
      grind [Typing.mem_past, IR.kept_append]
    have hrest : w'.Sound ctx.catalog
        ((Γ.past (r.code ++ clone ++ flushed)).past (rest.flatMap Ready.code)) := by
      refine (hsound _ (hclone.sound h)).congr fun x => ?_
      simp only [Typing.mem_past, IR.kept_append, flatMap_cons, hnone, mem_append, not_mem_nil]
      tauto
    refine .bind ((ih (fun v hv => (hs v hv).mono hsub) (hrefines'.trans hscope) (hrs.2.mono hsub') htypes hrest
      (Nat.succ.inj hlen)).mono fun result w'' _ hhanded => .pure ?_)
    obtain ⟨more, values⟩ := result
    have hafter : (Γ.past (r.code ++ clone ++ flushed)).past more ⊆ Γ.past (r.code ++ clone ++ flushed ++ more) :=
      fun x hx => Typing.mem_past_append.2 hx
    refine ⟨?_, ?_, ?_, ?_, ?_, ?_⟩
    · exact ((hrs.1.1.append hclone.straight).append (hstore.mono (Typing.subset_past ..))).append hhanded.straight
    · intro a ha
      cases ha with
      | head => exact hfits.mono fun x hx => hafter (Typing.subset_past _ _ (by
          simp_all [Typing.mem_past]))
      | tail _ ha => exact (hhanded.fits a ha).mono hafter
    · exact congrArg₂ List.cons htype hhanded.types
    · exact hhanded.sound.congr fun x => Typing.mem_past_append.symm
    · exact hclone.scope ▸ hscope.trans hhanded.refines
    obtain ⟨ids, hperm, hdraws⟩ := hhanded.drawn
    refine ⟨IR.definitions clone ++ ids, ?_, hclone.draws.append (hfresh ▸ hdraws)⟩
    rw [perm_iff_count] at hperm ⊢
    intro id
    have := hperm id
    simp only [flatMap_cons, IR.definitions_append, hnothing, count_append, count_nil] at this ⊢
    omega

theorem HandsOver.emits (h : Emits env c Γ w (rs.flatMap Ready.code) w')
    (hhanded : HandsOver env c Γ w' rs code values w'') :
    Emits env c Γ w code w'' where
  straight := hhanded.straight
  sound := hhanded.sound
  refines := h.refines.trans hhanded.refines
  draws := by
    obtain ⟨ids, hperm, hdraws⟩ := hhanded.drawn
    exact (h.draws.append hdraws).perm hperm.symm

theorem callFunction_lowers (hctx : ctx.Sound env) (hpath : w.Sound ctx.catalog Γ)
    (hf : f ∈ ctx.registry.functions) (hok : f.failed = false) (hlinked : f.Linked ctx.catalog types)
    (htypes : rs.map Ready.ty = types.parameters) (hrs : OperandsSound env Γ rs)
    (h : Emits env ctx.catalog Γ w (rs.flatMap Ready.code) w') (hlen : rs.length = es.length) :
    Secures (callFunction f rs es) w' fun l w'' =>
      Emits env ctx.catalog Γ w l.code w'' ∧ l.Sound env Γ := by
  have hcallable := hctx.callable f hf hok types hlinked
  unfold callFunction
  simp only [Function.linkedSignature, hlinked.signature]
  have husable : ∀ r ∈ rs, ctx.catalog.Usable r.ty := fun r hr =>
    (hlinked.parameters r.ty (htypes ▸ mem_map.2 ⟨r, hr, rfl⟩)).1
  refine .bind ((passValues_passes hctx hpath.vars h.refines hrs husable h.sound hlen).mono
    fun result w'' _ hhanded => ?_)
  obtain ⟨code, values⟩ := result
  have hexpr := hhanded.emits h
  have hvals : values.map Argument.ty = types.parameters.map TypeRef.irType := by
    rw [hhanded.types, ← htypes, map_map]
    rfl
  split
  · next hlin =>
    rw [if_pos hlin] at hcallable
    refine .bind (.fresh (.pure ?_))
    obtain ⟨ref, href⟩ := TypeRef.isLinear_iff.1 hlin
    have hallots := (hctx.linear hlinked.result href).2
    rw [← TypeRef.storageType_of_linear? href] at hallots
    have halloc : Supplies env (Γ.past code) w'' _ _ :=
      .set _ (.alloc types.returnType.storageType) trivial ⟨hctx.storageType_sized hlinked.result, hallots⟩
    have hslot : Argument.Fits ((Γ.past code).past [.set w''.fresh (.alloc types.returnType.storageType)])
        (.register types.returnType.irType w''.fresh) := by
      rw [TypeRef.irType_of_linear hlin]
      exact .head _
    have hargs : ∀ a ∈ Argument.register types.returnType.irType w''.fresh :: values,
        a.Fits ((Γ.past code).past [.set w''.fresh (.alloc types.returnType.storageType)]) := by
      intro a ha
      cases ha with
      | head => exact hslot
      | tail _ ha => exact (hhanded.fits a ha).mono (Typing.subset_past ..)
    rw [← hvals] at hcallable
    have hcall := halloc.append (.effect _ (.call .void f.represent _) ⟨⟨hargs, hcallable⟩, hctx.calls f hf hok⟩ rfl)
    refine ⟨hexpr.append (hcall.emits hexpr.sound), ⟨?_, rfl⟩, hrs.epilog⟩
    exact Argument.Fits.mono hslot fun x hx => Typing.mem_past_append.2 hx
  rename_i hlin
  rw [if_neg hlin] at hcallable
  refine .pure ⟨hexpr, ⟨⟨⟨hhanded.fits, ?_⟩, rfl⟩, fun hvoid => ⟨hvoid, hctx.calls f hf hok⟩, ?_⟩, hrs.epilog⟩
  · rwa [hvals]
  · rintro _ _ _ ⟨⟩
    exact hctx.calls f hf hok

theorem applyCall_lowers (hctx : ctx.Sound env) (hpath : w.Sound ctx.catalog Γ)
    (hrs : OperandsSound env Γ rs) (h : Emits env ctx.catalog Γ w (rs.flatMap Ready.code) w')
    (hlen : rs.length = es.length) (name : String) (span : Span) :
    Secures (applyCall ctx name rs es span) w' fun l w'' =>
      Emits env ctx.catalog Γ w l.code w'' ∧ l.Sound env Γ := by
  unfold applyCall
  dsimp only
  split
  · next source target operand hfind =>
    obtain ⟨_, _, hcallee, -⟩ | ⟨s, t, hcallee, hargs, hsrc, htgt, -⟩ := Registry.find_cases hfind
    · cases hcallee
    cases hcallee
    have hty : operand.ty = .primitive source := singleton_inj.1 hargs
    refine .pure ⟨?_, convert_sound hrs.1.2 hty hsrc htgt⟩
    rw [flatMap_singleton] at h
    exact h
  · next id f hfind =>
    obtain ⟨i, g, hcallee, hg, -, haccepts⟩ | ⟨_, _, hcallee, -⟩ := Registry.find_cases hfind
    · cases hcallee
      have hmem := mem_of_getElem? hg
      obtain ⟨hok, types, hsig, hparams⟩ := Function.accepts_iff.1 haccepts
      obtain ⟨types', hlinked⟩ := hctx.registry f hmem hok
      cases hlinked.signature.symm.trans hsig
      exact callFunction_lowers hctx hpath hmem hok hlinked hparams.symm hrs h hlen
    · cases hcallee
  · exact .reject

/-! ### Expressions -/

mutual

/-- **Expressions.** Lowering one breaks no promise and emits straight, well-typed code with a value of its type. -/
theorem lowerExpr_lowers (hctx : ctx.Sound env) {Γ w}
    (h : w.Sound ctx.catalog Γ) : ∀ e : Expr, Lowers env ctx.catalog Γ w (lowerExpr ctx e)
  | .constant constant => lowerConstant_lowers hctx h constant
  | .place p => lowerPlace_lowers hctx h p
  | .call call => lowerCall_lowers hctx h call
  | .arithmetic operator lhs rhs span => by
    refine (lowerExpr_lowers hctx h lhs).ready_bind _ fun a w' ha hsound => ?_
    refine (lowerExpr_lowers hctx ha.sound rhs).ready_bind _ fun b w'' hb hsound' => ?_
    refine .check (arithmetic_blames _ _ _ _) fun l hl => ?_
    obtain ⟨hcode, hl⟩ := arithmetic_sound hl hsound hsound'
    exact ⟨hcode ▸ ha.append hb, hl⟩
  | .compare operator lhs rhs span => by
    refine (lowerExpr_lowers hctx h lhs).ready_bind _ fun a w' ha hsound => ?_
    refine (lowerExpr_lowers hctx ha.sound rhs).ready_bind _ fun b w'' hb hsound' => ?_
    refine .check (comparison_blames _ _ _ _) fun l hl => ?_
    obtain ⟨hcode, hl⟩ := comparison_sound hl hsound hsound'
    exact ⟨hcode ▸ ha.append hb, hl⟩
  | .logical operator lhs rhs span => by
    refine (lowerExpr_lowers hctx h lhs).ready_bind _ fun a w' ha hsound => ?_
    refine .bind (.check (Ready.expectBool_blames _ _) fun _ hbool => ?_)
    refine (lowerExpr_lowers hctx ha.sound rhs).ready_bind _ fun b w'' hb hsound' => ?_
    refine .bind (.check (Ready.expectBool_blames _ _) fun _ hbool' => .pure ⟨ha.append hb, ?_⟩)
    exact logical_sound operator hsound hsound' (Ready.expectBool_eq_ok hbool) (Ready.expectBool_eq_ok hbool')
  | .not operand span => by
    refine (lowerExpr_lowers hctx h operand).ready_bind _ fun a w' ha hsound => ?_
    refine .bind (.check (Ready.expectBool_blames _ _) fun _ hbool => .pure ⟨ha, ?_⟩)
    exact negation_sound hsound (Ready.expectBool_eq_ok hbool)

theorem lowerCall_lowers (hctx : ctx.Sound env) {Γ w} (h : w.Sound ctx.catalog Γ) :
    ∀ call : Call, Lowers env ctx.catalog Γ w (lowerCall ctx call)
  | ⟨⟨name, [], _⟩, es, span⟩ => by
    refine .bind ((lowerOperands_emits hctx h es).mono fun rs w' _ hrs => ?_)
    exact applyCall_lowers hctx h hrs.2.1 hrs.1 hrs.2.2 name.symbol span
  | ⟨⟨_, access :: _, _⟩, _, _⟩ => .reject

theorem lowerOperands_emits (hctx : ctx.Sound env) {Γ w}
    (h : w.Sound ctx.catalog Γ) : ∀ es : List Expr,
      Secures (lowerOperands ctx es) w fun rs w' =>
        Emits env ctx.catalog Γ w (rs.flatMap Ready.code) w' ∧ OperandsSound env Γ rs ∧ rs.length = es.length
  | [] => .pure ⟨.nil h, trivial, rfl⟩
  | e :: es => by
    refine (lowerExpr_lowers hctx h e).ready_bind _ fun r w' hr hsound => ?_
    refine .bind ((lowerOperands_emits hctx hr.sound es).mono fun rs w'' _ hrs => .pure ?_)
    exact ⟨hr.append hrs.1, ⟨⟨hr.straight, hsound⟩, hrs.2.1⟩, congrArg Nat.succ hrs.2.2⟩

end

/-- Lowering an expression, of a certain type if one is expected, to an operand. -/
theorem lowerOperand_emits (hctx : ctx.Sound env) (h : w.Sound ctx.catalog Γ) (e : Expr)
    (expected : Option TypeRef) :
    Secures (lowerOperand ctx e expected) w fun r w' =>
      Emits env ctx.catalog Γ w r.code w' ∧ r.Sound Γ ∧ ∀ ty, expected = some ty → r.ty = ty := by
  refine .bind ((lowerExpr_lowers hctx h e).mono fun l w' _ hl => ?_)
  have hready := Lowered.ready_emits hl.1 hl.2 e.span
  rcases expected with _ | ty
  · exact .bind (.pure (hready.mono fun r _ _ hr => ⟨hr.1, hr.2.1, fun _ h => by cases h⟩))
  unfold Lowered.expect
  dsimp only
  split
  · exact .bind .reject
  rename_i hty
  refine .bind (.pure (hready.mono fun r _ _ hr => ⟨hr.1, hr.2.1, fun ty' h => ?_⟩))
  cases h
  exact hr.2.2.trans (not_not.1 hty)

end Lowering
