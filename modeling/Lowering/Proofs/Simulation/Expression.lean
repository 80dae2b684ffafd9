import Lowering.Proofs.Simulation.Operations
/-!
# The code of an expression evaluates it

The main result is `lowerExpr_evaluates`. Operations are evaluated by their code; what is left are calls. All operands
of a call are lowered first and handed over then, so the code of an operand runs in front of code that was made later
than that of the next one: copies of structures, and write-backs of known values.
-/

namespace Lowering

open List
open IR (Argument Code Local)
open Meaning

variable {k : Scene} {w w' u u' : Workspace} {e : Expr} {rs : List Ready} {es : List Expr}
  {name : String} {site : Site} {R : Registers} {rest : Code} {destination : Option Local} {M : Memory}

/-! ### Handing operands over -/

/-- Operands one after another, each lowered where the one before it ends. -/
inductive Operands (k : Scene) : Workspace → List Ready → List Expr → Workspace → Prop where
  | nil (w : Workspace) : Operands k w [] [] w
  | cons {w w1 w' : Workspace} {r : Ready} {rs : List Ready} {e : Expr} {es : List Expr}
      (hsteady : w.Steady k.numbers w1)
      (hr : r.Evaluates k w w1 e) (h : Operands k w1 rs es w') : Operands k w (r :: rs) (e :: es) w'

theorem Operands.steady (h : Operands k w rs es w') : w.Steady k.numbers w' := by
  induction h with
  | nil => exact .refl ..
  | cons hsteady _ _ ih => exact hsteady.trans ih

theorem Operands.epilog (h : Operands k w rs es w') : rs.flatMap Ready.epilog = [] := by
  induction h with
  | nil => rfl
  | cons _ hr _ ih => rw [flatMap_cons, hr.epilog, ih, nil_append]

/-- **Handing one operand over.** A structure that is handed over is new. -/
theorem passValue_simulates (hk : k.Sound) (htemporary : r.provenance = .temporary ↔ ∀ p, e ≠ .place p) :
    Attains (passValue r) w fun result w' => ∃ clone, result.1 = r.code ++ clone ∧ w'.scope = w.scope ∧
      (w.fresh : Nat) ≤ w'.fresh ∧
      ∀ {site rest env low R M x},
        k.Hosts site → M.Proper → r.Gives k.catalog env low R M x → low ≤ M.size → R.Blank w.fresh w'.fresh →
          site.Simulates (k.setting.pass e x) clone rest R M fun _ R' M' =>
            Registers.Changes w.fresh w'.fresh R R' ∧ M'.Proper ∧ M.size ≤ M'.size ∧
            (∀ b < M.size, M'.byteAt b = M.byteAt b) ∧
            ∃ a, R'.argument result.2 = .ok (x.handle a) ∧ (x.isStruct = true → low ≤ a ∧ M'.Holds a x) := by
  unfold passValue
  split
  · next ref hlin hprovenance =>
    refine .pure ⟨[], (append_nil _).symm, rfl, le_rfl, ?_⟩
    intro site rest env low R M x hsite hM hgives hlow hblank
    have hpass : k.setting.pass e x = pure () := by
      cases e with
      | place p => exact absurd rfl (htemporary.1 hprovenance p)
      | _ => rfl
    rw [hpass]
    obtain ⟨a, hvalue, hstruct⟩ := hgives.value
    exact .pure
      ⟨.refl _ _ R, hM, le_rfl, fun _ _ => rfl, a, hvalue, fun h => ⟨(hstruct h).2 hprovenance, (hstruct h).1⟩⟩
  · next ref hlin hprovenance =>
    refine .bind ((cloneStructure_simulates k.setting rfl ref r.argument).mono fun result w' _ hclone => ?_)
    obtain ⟨hscope, hfresh, hclone⟩ := hclone
    refine .pure ⟨result.1, rfl, hscope, hfresh, ?_⟩
    intro site rest env low R M x hsite hM hgives hlow hblank
    have hty : x.ty = ⟨.struct ref, 1⟩ := hgives.ty.symm.trans (TypeRef.linear?_eq_some hlin)
    have hstruct : x.isStruct = true := by rw [← Value.isLinear_ty, hty]; rfl
    have hpass : k.setting.pass e x = k.setting.reserve x.ty := by
      obtain ⟨p, rfl⟩ : ∃ p, e = .place p := by
        simp_all
      exact if_pos hstruct
    rw [hpass]
    obtain ⟨a, hvalue, hlies⟩ := hgives.value
    rw [Value.handle_struct hstruct] at hvalue
    refine (hclone (hk.laidIn hsite) hM hgives.fits hty hvalue (hlies hstruct).1 hblank).mono fun _ R' M' hpost => ?_
    obtain ⟨hchanges, harg, hM', hsize, hholds, hbytes⟩ := hpost
    refine ⟨hchanges, hM', hsize, hbytes, M.size, ?_, fun _ => ⟨hlow, hholds⟩⟩
    rw [Value.handle_struct hstruct]
    exact harg
  rename_i hlin
  refine .pure ⟨[], (append_nil _).symm, rfl, le_rfl, ?_⟩
  intro site rest env low R M x hsite hM hgives hlow hblank
  have hscalar : x.isStruct = false := by
    rw [← Value.isLinear_ty, ← hgives.ty, TypeRef.isLinear, hlin]
    rfl
  have hpass : k.setting.pass e x = pure () := by
    cases e with
    | place => exact if_neg (by simp_all)
    | _ => rfl
  rw [hpass]
  obtain ⟨a, hvalue, -⟩ := hgives.value
  refine .pure ⟨.refl _ _ R, hM, le_rfl, fun _ _ => rfl, a, hvalue, fun h => ?_⟩
  rw [hscalar] at h
  cases h

theorem flushArgument_simulates (k : Scene) {s : Scope} (hrefines : s.Refines w.scope) (e : Expr) :
    Attains (flushArgument e) w fun code w' => w.Steady k.numbers w' ∧ w'.fresh = w.fresh ∧
      (∀ {R M place env},
        w.scope.Holds k.catalog R M place env → w'.scope.Holds k.catalog R M place env) ∧
      ∀ {site : Site} {R M place env}, s.Holds k.catalog R M place env →
        M.Proper → ∃ M', M'.size = M.size ∧ site.Runs code R M R M' ∧ s.Holds k.catalog R M' place env ∧
          ∀ b, ¬ env.Owns place b → M'.byteAt b = M.byteAt b := by
  unfold flushArgument
  split
  · refine .bind (.get (.bind (.check fun id hid => ?_)))
    exact flushVariable_simulates k.catalog k.numbers hrefines id
  refine .pure ⟨.refl .., rfl, fun h => h, ?_⟩
  intro site R M place env hholds hM
  exact ⟨M, rfl, .nil, hholds, fun _ _ => rfl⟩

/-- **Handing operands over.** The code of each operand runs where the one before it has come to, with copies and
write-backs in between; the locals of these come behind those of all operands. -/
theorem passValues_simulates (hk : k.Sound) (h : Operands k w rs es w') (hrefines : w'.scope.Refines u.scope)
    (hfresh : (w'.fresh : Nat) ≤ u.fresh) :
    Attains (passValues rs es) u fun result u' => u.Steady k.numbers u' ∧
      (∀ {R : Registers} {M place env},
        u.scope.Holds k.catalog R M place env → u'.scope.Holds k.catalog R M place env) ∧
      ∀ {site} {rest : Code} {env place R M} {first : Nat},
        k.Hosts site → w.scope.Holds k.catalog R M place env → M.Proper → R.Blank w.fresh w'.fresh →
        R.Blank u.fresh u'.fresh → first ≤ w.fresh →
          site.Simulates (k.setting.evalArguments env es) result.1 rest R M fun vs R' M' =>
            Quiet env place first u'.fresh R M R' M' ∧ w'.scope.Holds k.catalog R' M' place env ∧
            vs.map Value.ty = rs.map Ready.ty ∧
            ∃ ss, R'.arguments result.2 = .ok ss ∧ Passed k.catalog M' M.size M'.size vs ss := by
  induction h generalizing u with
  | nil w =>
    refine .pure ⟨.refl .., fun h => h, ?_⟩
    intro site rest env place R M first hsite hholds hM hblank hblank' hfirst
    rw [Setting.evalArguments]
    exact .pure ⟨.refl env place _ _ R hM, hholds, rfl, [], rfl, .nil le_rfl⟩
  | @cons w w1 w' r rs e es hsteady hr hrest ih =>
    rw [passValues]
    refine .bind ((passValue_simulates hk hr.temporary).mono fun result w2 _ hpass => ?_)
    obtain ⟨code, value⟩ := result
    obtain ⟨clone, rfl, hscope, hfresh2, hpass⟩ := hpass
    have hrefines2 : w1.scope.Refines w2.scope := hscope ▸ hrest.steady.refines.trans hrefines
    refine .bind ((flushArgument_simulates k hrefines2 e).mono fun flushed u3 _ hflush => ?_)
    obtain ⟨hsteady3, hfresh3, hkeeps, hflush⟩ := hflush
    have hsteady2 : u.Steady k.numbers u3 := .trans (.of_scope hscope hfresh2) hsteady3
    refine .bind ((ih (hrefines.trans hsteady2.refines) (hfresh.trans hsteady2.fresh)).mono
      fun result u' _ hmore => .pure ?_)
    obtain ⟨more, values⟩ := result
    obtain ⟨hsteady', hkeeps', hmore⟩ := hmore
    refine ⟨hsteady2.trans hsteady', fun hholds => hkeeps' (hkeeps (hholds.congr (by rw [hscope]))), ?_⟩
    intro site rest env place R M first hsite hholds hM hblank hblank' hfirst
    have hsupply : (u.fresh : Nat) ≤ u3.fresh := hsteady2.fresh
    have hsupply' : (u3.fresh : Nat) ≤ u'.fresh := hsteady'.fresh
    have hclones : w2.fresh = u3.fresh := hfresh3.symm
    have hoperand : (w.fresh : Nat) ≤ w1.fresh := hsteady.fresh
    have hoperands : (w1.fresh : Nat) ≤ w'.fresh := hrest.steady.fresh
    have hbefore : (w1.fresh : Nat) ≤ u.fresh := hoperands.trans hfresh
    have hbehind : (w2.fresh : Nat) ≤ u'.fresh := (Nat.le_of_eq hclones).trans hsupply'
    rw [Setting.evalArguments, append_assoc, append_assoc]
    -- the operand
    refine (hr.simulates hsite hholds hM (hblank.mono le_rfl hoperands)).bind fun x R1 M1 hx => ?_
    obtain ⟨hquiet1, hholds1, hgives⟩ := hx
    -- the copy, if it is a structure that belongs to somebody
    have hblank1 : R1.Blank u.fresh w2.fresh :=
      (hblank'.mono le_rfl hbehind).changes hquiet1.changes (.inr hbefore)
    refine (hpass hsite hquiet1.proper hgives hquiet1.size hblank1).bind fun _ R2 M2 hpost => ?_
    obtain ⟨hchanges2, hM2, hsize2, hbytes2, a, harg, hstruct⟩ := hpost
    have hquiet2 : Quiet env place u.fresh w2.fresh R1 M1 R2 M2 :=
      ⟨hchanges2, hchanges2.le hblank1, hM2, hsize2, fun b hb _ => hbytes2 b hb⟩
    have hholds2 := hholds1.mono hquiet2.le hsize2 fun b hb => hbytes2 b (hholds1.lt_of_owns hb)
    -- the write-back, if it is a variable
    obtain ⟨M3, hsize3, hruns3, hholds3, hbytes3⟩ := hflush hholds2 hM2
    have hM3 : M3.Proper := ⟨hsize3 ▸ hM2.guarded, hsize3 ▸ hM2.limited⟩
    have hquiet3 : Quiet env place first u'.fresh R2 M2 R2 M3 :=
      ⟨.refl _ _ R2, .refl R2, hM3, Nat.le_of_eq hsize3.symm, fun b _ hb => hbytes3 b hb⟩
    refine .before hruns3 hsize3 ?_
    -- the other operands
    have hblank2 : R2.Blank w1.fresh w'.fresh :=
      ((hblank.mono hoperand le_rfl).changes hquiet1.changes (.inr le_rfl)).changes hchanges2 (.inl hfresh)
    have hblank2' : R2.Blank u3.fresh u'.fresh :=
      ((hblank'.mono hsupply le_rfl).changes hquiet1.changes (.inr (hbefore.trans hsupply))).changes
        hchanges2 (.inr (Nat.le_of_eq hclones))
    refine (hmore hsite hholds3 hM3 hblank2 hblank2' (hfirst.trans hoperand)).bind_pure fun vs R' M' hvs => ?_
    obtain ⟨hquiet', hholds', htypes, ss, hss, hpassed⟩ := hvs
    have hquiet : Quiet env place first u'.fresh R M R2 M3 :=
      (hquiet1.mono hfirst (hbefore.trans (hsupply.trans hsupply'))).trans
        ((hquiet2.mono (hfirst.trans (hoperand.trans hbefore)) hbehind).trans hquiet3)
    refine .pure ⟨hquiet.trans hquiet', hholds', ?_, x.handle a :: ss, ?_, ?_⟩
    · rw [map_cons, map_cons, htypes, hgives.ty]
    · exact Registers.arguments_eq_ok.2 (.cons (hquiet'.le.argument harg) (Registers.arguments_eq_ok.1 hss))
    -- nothing that runs later touches the bytes of what was handed over, which belong to no variable
    have hnobody (b : Nat) (hstruct' : x.isStruct = true) (hb : x.Covers a b) : ¬ env.Owns place b := fun howns =>
      Nat.lt_irrefl b ((hholds.lt_of_owns howns).trans_le (Nat.le_trans (hstruct hstruct').1 hb.1))
    refine .cons hgives.fits (fun hstruct' => ⟨(hstruct hstruct').1, ?_⟩) hquiet.size (fun hstruct' => ?_) hpassed
    · refine (hstruct hstruct').2.of_bytes (hquiet3.size.trans hquiet'.size) fun b hb => ?_
      have hbound := (hstruct hstruct').2.has.allocated
      have hinside : b < M3.size := by rw [hsize3]; exact hb.2.trans_le hbound
      rw [hquiet'.spares b hinside (hnobody b hstruct' hb), hbytes3 b (hnobody b hstruct' hb)]
    · rw [hsize3]
      exact (hstruct hstruct').2.has.allocated

/-! ### Calls -/

/-- The instruction that makes a call only for its effect. -/
def Output.effect : Output → Code
  | .compound (.call returnType callee arguments) => [.call returnType callee arguments]
  | _ => []

/-- A lowered call. Its value can be used, or be dropped. -/
structure Lowered.Makes (k : Scene) (w w' : Workspace) (l : Lowered) (call : Call) : Prop where
  steady : w.Steady k.numbers w'
  epilog : l.epilog = []
  used : l.Evaluates k w w' (.call call)
  dropped : ∀ {site : Site} {rest : Code} {env : Env} {place : Nat → Nat} {R : Registers} {M : Memory},
    k.Hosts site → w.scope.Holds k.catalog R M place env → M.Proper → R.Blank w.fresh w'.fresh →
      site.Simulates (k.setting.evalCall env call) (l.code ++ l.output.effect) rest R M fun _ R' M' =>
        Quiet env place w.fresh w'.fresh R M R' M' ∧ w'.scope.Holds k.catalog R' M' place env

theorem Meaning.Setting.apply_conversion {setting : Setting}
    (hfind : setting.registry.find name [x.ty] = some (.conversion source target)) :
    setting.apply name [x] = some <$> Eval.ofExcept (conversion target x) := by
  unfold Setting.apply
  rw [map_singleton, hfind]

/-- **Conversions.** -/
theorem convert_makes {operand} {a : Ready} {call source target} (hsteady : w.Steady k.numbers w')
    (ha : a.Evaluates k w w' operand)
    (hfind : k.ctx.registry.find name [a.ty] = some (.conversion source target)) (hty : a.ty = .primitive source)
    (hsrc : source.isNumeric = true) (htgt : target.isNumeric = true)
    (heval : ∀ env, k.setting.evalCall env call = k.setting.evalArguments env [operand] >>= k.setting.apply name) :
    (convert a source target).Makes k w w' call := by
  -- What is left to evaluate behind the operand only converts it.
  let convertOnly (x : Value) : Eval (Option Value) := do
    k.setting.pass operand x
    k.setting.apply name [x]
  have heval' (env : Env) : k.setting.evalCall env call = k.setting.evalExpr env operand >>= convertOnly := by
    simp [heval, Setting.evalArguments, convertOnly]
  have hconvert {x : Value} (hx : x.ty = .primitive source) :
      convertOnly x = some <$> Eval.ofExcept (conversion target x) := by
    have hpass : k.setting.pass operand x = pure () := by
      have hscalar : x.isStruct = false := by rw [← Value.isLinear_ty, hx]; rfl
      cases operand with
      | place => exact if_neg (by simp_all)
      | _ => rfl
    show k.setting.pass operand x >>= (fun _ => k.setting.apply name [x]) = _
    rw [hpass, pure_bind]
    exact Setting.apply_conversion (by rw [hx, ← hty]; exact hfind)
  have hexpr (env : Env) : k.setting.evalExpr env (.call call) =
      k.setting.evalExpr env operand >>= fun x => convertOnly x >>= Eval.ofOption := by
    rw [Setting.evalExpr, heval', bind_assoc]
  refine ⟨hsteady, ha.epilog, ?_, ?_⟩
  · cases hconv : source.conversion target with
    | some op =>
      unfold convert
      rw [hconv]
      refine Ready.apply_evaluates hsteady ha hty rfl (fun _ h => by cases h) hexpr
        (fun {R x} hx htx harg hoperand => ?_)
      obtain ⟨r, hr, hfits, htr, hagrees⟩ := conversion_agrees hsrc htgt hx htx
      rw [hconv] at hagrees
      refine ⟨.ok r, ?_, ⟨.ok r.scalar, ?_, rfl⟩, fun z hz => ?_⟩
      · rw [hconvert htx, hr]
        rfl
      · rintro frame M rfl
        rw [← harg] at hoperand
        rw [evaluate]
        refine (Effect.lift_bind hoperand _ M).trans ?_
        rw [harg, hagrees]
        rfl
      · cases hz
        exact ⟨hfits, htr⟩
    | none =>
      have hout : (convert a source target).output = .bare ⟨target.irType, a.argument.value⟩ := by
        unfold convert
        rw [hconv]
      refine Evaluates.bare hout hsteady ⟨ha.epilog, ⟨fun _ _ h => (by cases h), fun _ => rfl⟩, ha.admitted, ?_⟩
      intro site rest env place R M hsite hholds hM hblank
      rw [hexpr]
      refine (ha.simulates hsite hholds hM hblank).bind_pure fun x R' M' hpost => ?_
      obtain ⟨hquiet, hholds', hgives⟩ := hpost
      have htx : x.ty = .primitive source := hgives.ty.symm.trans hty
      obtain ⟨r, hr, hfits, htr, hagrees⟩ := conversion_agrees hsrc htgt hgives.fits htx
      rw [hconv] at hagrees
      have hscalar : r.isStruct = false := by rw [← Value.isLinear_ty, htr]; rfl
      rw [hconvert htx, hr]
      refine .pure ⟨hquiet, hholds', htr.symm, hfits, by rw [htr]; rfl, ⟨0, ?_, fun h => ?_⟩, fun _ h => (by cases h)⟩
      · rw [Value.handle_scalar hscalar, ← hagrees]
        have hoperand := hgives.operand (.refl _) hty
        rwa [← Primitive.irType_of_conversion_eq_none hsrc htgt hconv] at hoperand
      · simp_all
  intro site rest env place R M hsite hholds hM hblank
  have hnothing : (convert a source target).code ++ (convert a source target).output.effect = a.code := by
    unfold convert
    cases source.conversion target <;> exact append_nil _
  rw [heval', hnothing]
  refine (ha.simulates hsite hholds hM hblank).bind_pure fun x R' M' hpost => ?_
  obtain ⟨hquiet, hholds', hgives⟩ := hpost
  have htx : x.ty = .primitive source := hgives.ty.symm.trans hty
  obtain ⟨r, hr, -⟩ := conversion_agrees hsrc htgt hgives.fits htx
  rw [hconvert htx, hr]
  exact .pure ⟨hquiet, hholds'⟩

theorem Meaning.Setting.apply_function {setting : Setting} {id f types vs}
    (hfind : setting.registry.find name (vs.map Value.ty) = some (.function id f)) (hsig : f.signature = some types) :
    setting.apply name vs =
      (if types.returnType.isLinear then setting.reserve types.returnType else pure ()) >>=
        fun _ => setting.call f vs := by
  unfold Setting.apply
  rw [hfind]
  dsimp only
  rw [hsig, Eval.ofOption, pure_bind]
  split <;> rfl

theorem Site.deliver_holding {out frame} (h : (site.holding R rest).deliver destination out = .ok frame) :
    ∃ R', frame = site.holding R' rest ∧ (destination = none → R' = R) ∧
      ∀ r, destination = some r → ∃ v, out = some v ∧ R' = R.set r v := by
  rcases destination with _ | r
  · cases h
    simp
  rcases out with _ | v
  · cases h
  cases h
  refine ⟨R.set r v, rfl, nofun, ?_⟩
  simp

/-- **Making a call**, with values that were handed over. -/
theorem Scene.Sound.serve (hk : k.Sound) (hsite : k.Hosts site) (hf : f ∈ k.ctx.registry.functions)
    (hok : f.failed = false) (hlinked : f.Linked k.catalog types)
    (slot : Nat) (hi : i.isLabel = false)
    (hstep : step site.program (site.holding R rest) site.callers i M =
      Lowering.call site.program (site.holding R rest) site.callers destination f.represent
        (slotOf types.returnType slot ++ ss) M)
    (hM : M.Proper) (htypes : vs.map Value.ty = types.parameters) (hpassed : Passed k.catalog M low high vs ss)
    (hhigh : high ≤ M.size)
    (hslot : types.returnType.isLinear = true →
      high ≤ slot ∧ ∃ size, k.catalog.sizeOf? types.returnType = some size ∧ M.Has slot size)
    (hdest : ∀ r, destination = some r → types.returnType.isLinear = false ∧ types.returnType.isVoid = false) :
    site.Simulates (k.call f vs) [i] rest R M fun result R' M' => M'.Proper ∧ M.size ≤ M'.size ∧
      (∀ b < low, M'.byteAt b = M.byteAt b) ∧ ∃ out, Returned k.catalog M' slot types.returnType result out ∧
        (destination = none → R' = R) ∧ ∀ r, destination = some r → ∃ v, out = some v ∧ R' = R.set r v := by
  have hserves := hk.serves f hf hok types hlinked (site.holding R rest) destination hM htypes hpassed hhigh hslot hdest
  rw [← hsite.program, ← hsite.callers] at hserves
  refine Ensures.mono hserves (fun result used _ hserved => ?_) fun stop _ _ hfailed => ?_
  · obtain ⟨M', out, frame, hused, hM', hsize, hbytes, hret, hdeliver, hleads⟩ := hserved
    obtain ⟨R', rfl, hR'⟩ := Site.deliver_holding hdeliver
    exact ⟨R', M', hused, hleads.steps hi hstep, hM', hsize, hbytes, out, hret, hR'⟩
  · obtain ⟨e, rfl, hbreaks⟩ := hfailed
    exact ⟨e, rfl, hbreaks.halts hi hstep⟩

/-- Code that hands the values of a call over. The call is evaluated by it with the call itself behind it. -/
def Hands (k : Scene) (w w' : Workspace) (code : Code) (values : List Argument) (f : Function) (types : Signature)
    (call : Call) : Prop :=
  ∀ {site : Site} {more rest : Code} {env : Env} {place : Nat → Nat} {R : Registers} {M : Memory}
    {Q : Option Value → Registers → Memory → Prop}, k.Hosts site → w.scope.Holds k.catalog R M place env → M.Proper →
    R.Blank w.fresh w'.fresh →
    (∀ vs ss R' M', Quiet env place w.fresh w'.fresh R M R' M' → w'.scope.Holds k.catalog R' M' place env →
      vs.map Value.ty = types.parameters → R'.arguments values = .ok ss → Passed k.catalog M' M.size M'.size vs ss →
        site.Simulates ((if types.returnType.isLinear then k.setting.reserve types.returnType else pure ()) >>=
          fun _ => k.call f vs) more rest R' M' Q) →
      site.Simulates (k.setting.evalCall env call) (code ++ more) rest R M Q

section Functions

variable {f : Function} {types : Signature} {code : Code} {values : List Argument} {call : Call}

/-- **A call whose result is a structure.** It is written to memory that is allocated before. -/
theorem Hands.linear (hk : k.Sound) (hf : f ∈ k.ctx.registry.functions) (hok : f.failed = false)
    (hlinked : f.Linked k.catalog types) (hlin : types.returnType.isLinear = true)
    (h : Hands k w w' code values f types call) (hsite : k.Hosts site)
    (hholds : w.scope.Holds k.catalog R M place env) (hM : M.Proper) (hsupply : (w.fresh : Nat) ≤ w'.fresh)
    (hblank : R.Blank w.fresh (w'.fresh + 1)) :
    site.Simulates (k.setting.evalCall env call) (code ++ [
        .set w'.fresh (.alloc types.returnType.storageType),
        .call .void f.represent (.register types.returnType.irType w'.fresh :: values)]) rest R M fun result R' M' =>
      Quiet env place w.fresh (w'.fresh + 1) R M R' M' ∧ w'.scope.Holds k.catalog R' M' place env ∧
        ∃ x a, result = some x ∧ x.Fits k.catalog ∧ x.ty = types.returnType ∧
          R'.get? w'.fresh = some (.address a) ∧ M'.Holds a x ∧ M.size ≤ a := by
  obtain ⟨size, hsize⟩ := hlinked.result.exists_size
  have hlast : (w'.fresh : Nat) ≤ w'.fresh + 1 := Nat.le_succ _
  refine h hsite hholds hM (hblank.mono le_rfl hlast) fun vs ss R1 M1 hquiet hholds1 hvs hss hpassed => ?_
  rw [if_pos hlin]
  let slot : Argument := .register types.returnType.irType w'.fresh
  have hreserve : site.Simulates (k.setting.reserve types.returnType)
      [.set w'.fresh (.alloc types.returnType.storageType)]
        ([.call .void f.represent (slot :: values)] ++ rest) R1 M1
      fun _ R2 M2 => R2 = R1.set w'.fresh (.address M1.size) ∧ M2 = M1.grow (max size 1) ∧ M2.Proper :=
    .reserve rfl hk.laid.sound (hk.laidIn hsite).toDeclaredIn hlinked.result hsize fun hroom =>
      ⟨rfl, rfl, hquiet.proper.grow hroom⟩
  refine hreserve.bind fun _ R2 M2 hpost => ?_
  obtain ⟨hR2, hM2, hproper2⟩ := hpost
  have hsize2 : M1.size ≤ M2.size := by simp [hM2]
  have hbytes2 (b : Nat) : M2.byteAt b = M1.byteAt b := by rw [hM2, Memory.byteAt_grow]
  have hslot : R2.get? w'.fresh = some (.address M1.size) := by rw [hR2, Registers.get?_set_self]
  have hle : R1.Le R2 := by
    rw [hR2]
    refine .set ?_ _
    rw [hquiet.changes _ fun h => Nat.lt_irrefl _ h.2]
    exact hblank _ hsupply (Nat.lt_succ_self _)
  have hchanges : Registers.Changes w'.fresh (w'.fresh + 1) R1 R2 := by
    rw [hR2]
    exact .set le_rfl (Nat.lt_succ_self _) R1 _
  have hargs : R2.arguments (slot :: values) = .ok (slotOf types.returnType M1.size ++ ss) := by
    rw [slotOf, if_pos hlin]
    refine Registers.arguments_eq_ok.2 (.cons (Registers.argument_register hslot) ?_)
    exact (Registers.arguments_eq_ok.1 hss).imp fun _ _ h => hle.argument h
  refine (hk.serve hsite hf hok hlinked _ rfl (Moment.step_call hargs) hproper2 hvs
    (hpassed.mono hsize2 fun b _ _ => hbytes2 b) hsize2 (fun _ => ⟨le_rfl, size, hsize, ?_⟩) nofun).mono
    fun result R' M' hserved => ?_
  · rw [hM2]
    exact hquiet.proper.has_new size
  obtain ⟨hM', hsize', hbytes', out, hret, hnone, -⟩ := hserved
  obtain rfl := hnone rfl
  have hgrows := hsize2.trans hsize'
  refine ⟨⟨?_, hquiet.le.trans hle, hM', hquiet.size.trans hgrows, fun b hb howns => ?_⟩, ?_, ?_⟩
  · exact (hquiet.changes.mono le_rfl hlast).trans (hchanges.mono hsupply le_rfl)
  · rw [hbytes' b hb, hbytes2, hquiet.spares b hb howns]
  · exact hholds1.mono hle hgrows fun b hb => by rw [hbytes' b (hholds.lt_of_owns hb), hbytes2]
  obtain ⟨x, hres, hfits, hty, hlies⟩ := hret.of_not_void (TypeRef.isVoid_of_isLinear hlin)
  rw [if_pos (by rw [← Value.isLinear_ty, hty, hlin])] at hlies
  exact ⟨x, M1.size, hres, hfits, hty, hslot, hlies.1, hquiet.size⟩

/-- **A call whose result is no structure**, for the result or only for its effect. -/
theorem Hands.plain (hk : k.Sound) (hf : f ∈ k.ctx.registry.functions) (hok : f.failed = false)
    (hlinked : f.Linked k.catalog types) (hlin : types.returnType.isLinear = false)
    (h : Hands k w w' code values f types call) (hi : i.isLabel = false)
    (hstep : ∀ {site : Site} {rest R M ss}, R.arguments values = .ok ss →
      step site.program (site.holding R rest) site.callers i M =
        Lowering.call site.program (site.holding R rest) site.callers destination f.represent ss M)
    (hdest : ∀ r, destination = some r → types.returnType.isVoid = false)
    (hsite : k.Hosts site) (hholds : w.scope.Holds k.catalog R M place env) (hM : M.Proper)
    (hblank : R.Blank w.fresh w'.fresh) :
    site.Simulates (k.setting.evalCall env call) (code ++ [i]) rest R M fun result R' M' =>
      ∃ R1, Quiet env place w.fresh w'.fresh R M R1 M' ∧ w'.scope.Holds k.catalog R1 M' place env ∧
        (destination = none → R' = R1) ∧ ∀ r, destination = some r →
          ∃ x, result = some x ∧ x.Fits k.catalog ∧ x.ty = types.returnType ∧ R' = R1.set r x.scalar := by
  refine h hsite hholds hM hblank fun vs ss R1 M1 hquiet hholds1 hvs hss hpassed => ?_
  rw [if_neg (by simp_all), pure_bind]
  have hslot : slotOf types.returnType 0 ++ ss = ss := by
    simp [slotOf, hlin]
  refine (hk.serve hsite hf hok hlinked 0 hi (by rw [hslot]; exact hstep hss) hquiet.proper hvs hpassed
    le_rfl (fun h => ?_) fun r hr => ⟨hlin, hdest r hr⟩).mono fun result R' M' hserved => ?_
  · rw [hlin] at h
    cases h
  obtain ⟨hM', hsize', hbytes', out, hret, hnone, hsome⟩ := hserved
  refine ⟨R1, ⟨hquiet.changes, hquiet.le, hM', hquiet.size.trans hsize', fun b hb howns => ?_⟩, ?_, hnone, ?_⟩
  · rw [hbytes' b hb, hquiet.spares b hb howns]
  · exact hholds1.mono (.refl R1) hsize' fun b hb => hbytes' b (hholds.lt_of_owns hb)
  intro r hr
  obtain ⟨v, rfl, hR'⟩ := hsome r hr
  obtain ⟨x, hres, hfits, hty, hlies⟩ := hret.of_not_void (hdest r hr)
  rw [if_neg (by rw [← Value.isLinear_ty, hty, hlin]; exact Bool.false_ne_true)] at hlies
  cases hlies
  exact ⟨x, hres, hfits, hty, hR'⟩

/-- **Calls of functions.** -/
theorem callFunction_makes (hk : k.Sound) {id : Nat} (hf : f ∈ k.ctx.registry.functions) (hok : f.failed = false)
    (hlinked : f.Linked k.catalog types) (hoperands : Operands k w rs es w')
    (htypes : rs.map Ready.ty = types.parameters)
    (hfind : k.ctx.registry.find name types.parameters = some (.function id f))
    (heval : ∀ env, k.setting.evalCall env call = k.setting.evalArguments env es >>= k.setting.apply name) :
    Attains (callFunction f rs es) w' fun l w'' => l.Makes k w w'' call := by
  unfold callFunction
  simp only [Function.linkedSignature, hlinked.signature]
  refine .bind ((passValues_simulates hk hoperands (.refl _) le_rfl).mono fun result p _ hpass => ?_)
  obtain ⟨code, values⟩ := result
  obtain ⟨hsteady', hkeeps, hpass⟩ := hpass
  have hsteady2 := hoperands.steady.trans hsteady'
  have hlast : (p.fresh : Nat) ≤ p.fresh + 1 := Nat.le_succ _
  have hhands : Hands k w p code values f types call := by
    intro site more rest env place R M Q hsite hholds hM hblank hmore
    rw [heval]
    refine (hpass hsite hholds hM (hblank.mono le_rfl hsteady'.fresh) (hblank.mono hoperands.steady.fresh le_rfl)
      le_rfl).bind fun vs R' M' hvs => ?_
    obtain ⟨hquiet, hholds', htypes', ss, hss, hpassed⟩ := hvs
    have htypes'' := htypes'.trans htypes
    rw [Setting.apply_function (by rw [htypes'']; exact hfind) hlinked.signature]
    exact hmore vs ss R' M' hquiet (hkeeps hholds') htypes'' hss hpassed
  have hexpr (env : Env) : k.setting.evalExpr env (.call call) = k.setting.evalCall env call >>= Eval.ofOption := by
    rw [Setting.evalExpr]
  split
  · next hlin =>
    refine .bind (.fresh (.pure ?_))
    have hsteady3 : w.Steady k.numbers { p with fresh := p.fresh + 1 } := hsteady2.trans (.of_scope rfl hlast)
    refine ⟨hsteady3, hoperands.epilog, fun span => ?_, ?_⟩
    · refine Evaluates.bare rfl hsteady3 ⟨hoperands.epilog, ⟨fun _ _ h => (by cases h), fun _ => rfl⟩,
        fun _ => (by trivial), ?_⟩ span
      intro site rest env place R M hsite hholds hM hblank
      rw [hexpr]
      refine (hhands.linear hk hf hok hlinked hlin hsite hholds hM hsteady2.fresh hblank).bind_pure
        fun result R' M' hres => ?_
      obtain ⟨hquiet, hholds', x, a, rfl, hfits, hty, hslot, hlies, hlow⟩ := hres
      have hstruct : x.isStruct = true := by rw [← Value.isLinear_ty, hty, hlin]
      refine .pure ⟨hquiet, hholds', hty.symm, hfits, by rw [hty]; rfl, ⟨a, ?_, fun _ => ⟨hlies, fun _ => hlow⟩⟩,
        fun _ h => (by cases h)⟩
      rw [Value.handle_struct hstruct]
      exact Registers.argument_register hslot
    intro site rest env place R M hsite hholds hM hblank
    rw [Output.effect, append_nil]
    · refine (hhands.linear hk hf hok hlinked hlin hsite hholds hM hsteady2.fresh hblank).mono
        fun result R' M' hres => ?_
      exact ⟨hres.1, hres.2.1⟩
    · rintro _ _ _ ⟨⟩
  rename_i hlin
  have hlin : types.returnType.isLinear = false := by simpa using hlin
  refine .pure ⟨hsteady2, hoperands.epilog, fun span => ?_, ?_⟩
  · unfold Lowered.ready
    dsimp only
    split
    · exact .reject
    rename_i hnotVoid
    have hvoid : types.returnType.isVoid = false :=
      Bool.eq_false_iff.2 fun h => hnotVoid (TypeRef.isVoid_irType h)
    refine .bind (.fresh (.pure ⟨hsteady2.trans (.of_scope rfl hlast), hoperands.epilog,
      ⟨fun _ _ h => (by cases h), fun _ => rfl⟩, fun _ => trivial, ?_⟩))
    intro site rest env place R M hsite hholds hM hblank
    rw [hexpr]
    refine (hhands.plain hk hf hok hlinked hlin rfl (fun hss => Moment.step_set_call hss p.fresh) (fun _ _ => hvoid)
      hsite hholds hM (hblank.mono le_rfl hlast)).bind_pure fun result R' M' hres => ?_
    obtain ⟨R1, hquiet, hholds', -, hdelivered⟩ := hres
    obtain ⟨x, rfl, hfits, hty, rfl⟩ := hdelivered p.fresh rfl
    have hscalar : x.isStruct = false := by rw [← Value.isLinear_ty, hty, hlin]
    have hnone : R1.get? p.fresh = none := by
      rw [hquiet.changes _ fun h => Nat.lt_irrefl _ h.2]
      exact hblank _ hsteady2.fresh (Nat.lt_succ_self _)
    have hset : Quiet env place p.fresh (p.fresh + 1) R1 M' (R1.set p.fresh x.scalar) M' :=
      .set le_rfl (Nat.lt_succ_self _) hnone hquiet.proper _
    refine .pure ⟨hquiet.append hset hsteady2.fresh hlast, hholds'.mono hset.le le_rfl fun _ _ => rfl, hty.symm,
      hfits, by rw [hty]; rfl, ⟨0, ?_, fun h => ?_⟩, fun _ h => (by cases h)⟩
    · rw [Value.handle_scalar hscalar]
      exact Registers.argument_set_self ..
    · simp_all
  intro site rest env place R M hsite hholds hM hblank
  refine (hhands.plain hk hf hok hlinked hlin rfl (fun hss => Moment.step_call hss) (fun _ h => by cases h)
    hsite hholds hM hblank).mono fun result R' M' hres => ?_
  simp_all

end Functions

theorem applyCall_makes (hk : k.Sound) (hoperands : Operands k w rs es w') {call}
    (heval : ∀ env, k.setting.evalCall env call = k.setting.evalArguments env es >>= k.setting.apply name)
    (span : Span) : Attains (applyCall k.ctx name rs es span) w' fun l w'' => l.Makes k w w'' call := by
  unfold applyCall
  dsimp only
  split
  · next source target operand hfind =>
    obtain ⟨_, _, hcallee, -⟩ | ⟨_, _, hcallee, hargs, hsrc, htgt, -⟩ := Registry.find_cases hfind
    · cases hcallee
    cases hcallee
    have hty : operand.ty = .primitive source := singleton_inj.1 hargs
    cases hoperands with
    | cons hsteady hoperand hnil =>
      cases hnil
      exact .pure (convert_makes hsteady hoperand hfind hty hsrc htgt heval)
  · next id f hfind =>
    obtain ⟨_, _, hcallee, hg, -, haccepts⟩ | ⟨_, _, hcallee, -⟩ := Registry.find_cases hfind
    · cases hcallee
      have hmem := mem_of_getElem? hg
      obtain ⟨hok, types, hsig, hparams⟩ := Function.accepts_iff.1 haccepts
      obtain ⟨types', hlinked⟩ := hk.registry f hmem hok
      cases hlinked.signature.symm.trans hsig
      exact callFunction_makes hk hmem hok hlinked hoperands hparams.symm (hparams ▸ hfind) heval
    · cases hcallee
  · exact .reject

/-! ### Expressions -/

mutual

/-- **Expressions.** -/
theorem lowerExpr_evaluates (hk : k.Sound) {w} : ∀ e : Expr, (∀ l ∈ e.literals, l.Admitted k.numbers) →
    Evaluates k w e (lowerExpr k.ctx e)
  | .constant c, hlits => by
    rw [lowerExpr]
    exact lowerConstant_evaluates c (hlits _ (by simp [Expr.literals]))
  | .place p, _ => by
    rw [lowerExpr]
    exact lowerPlace_evaluates hk p
  | .call call, hlits => by
    rw [lowerExpr]
    exact (lowerCall_makes hk call fun l hl => hlits l (by rwa [Expr.literals])).mono fun l w' _ hl => hl.used
  | .arithmetic operator lhs rhs span, hlits => by
    simp only [Expr.literals, forall_mem_append] at hlits
    rw [lowerExpr]
    refine (lowerExpr_evaluates hk lhs hlits.1).ready_bind _ fun a w' hsteady ha => ?_
    refine (lowerExpr_evaluates hk rhs hlits.2).ready_bind _ fun b w'' hsteady' hb => ?_
    exact .check fun l hl => arithmetic_evaluates hsteady ha hsteady' hb hl
  | .compare operator lhs rhs span, hlits => by
    simp only [Expr.literals, forall_mem_append] at hlits
    rw [lowerExpr]
    refine (lowerExpr_evaluates hk lhs hlits.1).ready_bind _ fun a w' hsteady ha => ?_
    refine (lowerExpr_evaluates hk rhs hlits.2).ready_bind _ fun b w'' hsteady' hb => ?_
    exact .check fun l hl => comparison_evaluates hsteady ha hsteady' hb hl
  | .logical operator lhs rhs span, hlits => by
    simp only [Expr.literals, forall_mem_append] at hlits
    rw [lowerExpr]
    refine (lowerExpr_evaluates hk lhs hlits.1).ready_bind _ fun a w' hsteady ha => ?_
    refine .bind (.check fun _ hbool => ?_)
    refine (lowerExpr_evaluates hk rhs hlits.2).ready_bind _ fun b w'' hsteady' hb => ?_
    refine .bind (.check fun _ hbool' => .pure ?_)
    exact logical_evaluates hsteady ha hsteady' hb operator span (Ready.expectBool_eq_ok hbool)
      (Ready.expectBool_eq_ok hbool')
  | .not operand span, hlits => by
    rw [lowerExpr]
    refine (lowerExpr_evaluates hk operand fun l hl => hlits l (by rwa [Expr.literals])).ready_bind _
      fun a w' hsteady ha => ?_
    refine .bind (.check fun _ hbool => .pure ?_)
    exact negation_evaluates hsteady ha span (Ready.expectBool_eq_ok hbool)

theorem lowerCall_makes (hk : k.Sound) {w} : ∀ call : Call, (∀ l ∈ call.literals, l.Admitted k.numbers) →
    Attains (lowerCall k.ctx call) w fun l w' => l.Makes k w w' call
  | ⟨⟨name, [], placeSpan⟩, es, span⟩, hlits => by
    rw [lowerCall]
    refine .bind ((lowerOperands_operands hk es fun l hl => hlits l (by rwa [Call.literals])).mono
      fun rs w' _ hrs => ?_)
    exact applyCall_makes hk hrs (fun env => by rw [Setting.evalCall]) span
  | ⟨⟨_, access :: _, _⟩, _, _⟩, _ => by
    rw [lowerCall]
    exact .reject

theorem lowerOperands_operands (hk : k.Sound) {w} : ∀ es : List Expr,
    (∀ l ∈ Expr.allLiterals es, l.Admitted k.numbers) → Attains (lowerOperands k.ctx es) w fun rs w' =>
      Operands k w rs es w'
  | [], _ => by
    rw [lowerOperands]
    exact .pure (.nil _)
  | e :: es, hlits => by
    simp only [Expr.allLiterals, forall_mem_append] at hlits
    rw [lowerOperands]
    refine (lowerExpr_evaluates hk e hlits.1).ready_bind _ fun r w' hsteady hr => ?_
    exact .bind ((lowerOperands_operands hk es hlits.2).mono fun rs w'' _ hrs => .pure (.cons hsteady hr hrs))

end

theorem Lowered.ready_ty (l : Lowered) (span : Span) : Attains (l.ready span) w fun r _ => r.ty = l.ty := by
  unfold Lowered.ready
  split
  · exact .pure rfl
  split
  · exact .reject
  · exact .bind (.fresh (.pure rfl))

/-- **Operands**, of a certain type if one is expected. -/
theorem lowerOperand_evaluates (hk : k.Sound) (hlits : ∀ l ∈ e.literals, l.Admitted k.numbers)
    (expected : Option TypeRef) : Attains (lowerOperand k.ctx e expected) w fun r w' =>
      w.Steady k.numbers w' ∧ r.Evaluates k w w' e ∧
        ∀ ty, expected = some ty → r.ty = ty := by
  unfold lowerOperand
  refine .bind ((lowerExpr_evaluates hk e hlits).mono fun l w' _ hl => ?_)
  have hready := (hl e.span).and (l.ready_ty e.span)
  rcases expected with _ | ty
  · exact .bind (.pure (hready.mono fun r _ _ hr => ⟨hr.1.1, hr.1.2, nofun⟩))
  unfold Lowered.expect
  dsimp only
  split
  · exact .bind .reject
  rename_i hty
  refine .bind (.pure (hready.mono fun r _ _ hr => ⟨hr.1.1, hr.1.2, ?_⟩))
  rintro _ ⟨⟩
  exact hr.2.trans (not_not.1 hty)

end Lowering
