import Lowering.Proofs.Simulation.Statement
/-!
# A procedure does what its function means

A function begins with its parameters as variables. A structure that was handed over becomes the variable where it lies,
and any other value gets memory of its own (`declareParameters_enters`). From there on the body is run
(`lowerEntry_evaluates`).
-/

namespace Lowering

open List
open IR (Code)
open Meaning

variable {k : Scene} {w : Workspace} {path : Path} {first last low : Nat} {R : Registers} {M : Memory} {c : Catalog}
  {x : Value} {vs : List Value} {ss : List Scalar} {setting : Setting}

/-! ### Parameters -/

/-- What lowering parameters does to the variables. -/
structure Workspace.Begins (numbers : Binary64 → Prop) (w w' : Workspace) : Prop where
  fresh : (w.fresh : Nat) ≤ w'.fresh
  admitted : w.scope.Admitted numbers → w'.scope.Admitted numbers

/-- Variables of a function that begins, while values that were handed over wait in a range of memory. All of them are
above `low`. -/
structure Entering (c : Catalog) (s : Scope) (low first last : Nat) (vs : List Value) (ss : List Scalar) (env : Env)
    (place : Nat → Nat) (R : Registers) (M : Memory) : Prop where
  holds : s.Holds c R M place env
  proper : M.Proper
  passed : Passed c M first last vs ss
  above : low ≤ first
  below : last ≤ M.size
  apart : ∀ b, env.Owns place b → low ≤ b ∧ (b < first ∨ last ≤ b)

theorem Enters.append {second R' R'' M' M''} (h : Enters first second R M R' M')
    (h' : Enters second last R' M' R'' M'') (hfirst : first ≤ second) (hsecond : second ≤ last) :
    Enters first last R M R'' M'' where
  changes := (h.changes.mono le_rfl hsecond).trans (h'.changes.mono hfirst le_rfl)
  size := h.size.trans h'.size
  bytes b hb := (h'.bytes b (hb.trans_le h.size)).trans (h.bytes b hb)

theorem Entering.struct {s a v env place} (hv : v.Holds c R M a x) (hfirst : first ≤ a)
    (hpassed : Passed c M (a + x.bytes.length) last vs ss) {us rs}
    (h : Entering c s low first last us rs env place R M) :
    Entering c (s.push v) low (a + x.bytes.length) last vs ss ((v.name, x) :: env)
      (Function.update place env.length a) R M where
  holds := by
    refine h.holds.push hv fun b hcovers howns => ?_
    have hend := hpassed.le
    obtain ⟨-, hb | hb⟩ := h.apart b howns <;> unfold Value.Covers at hcovers <;> omega
  proper := h.proper
  passed := hpassed
  above := h.above.trans (hfirst.trans (Nat.le_add_right ..))
  below := h.below
  apart b hb := by
    have hlow := h.above
    obtain howns | hcovers := (Env.places_push _ _ _).owns hb
    · obtain ⟨hle, hb | hb⟩ := h.apart b howns
      · omega
      · exact ⟨hle, .inr hb⟩
    · grind [Value.Covers]

theorem Entering.scalar {s r r' v env place R' M'} (hv : v.Holds c R' M' M.size x) {us rs}
    (h : Entering c s low first last us rs env place R M) (hpassed : Passed c M first last vs ss) (hM : M'.Proper)
    (hentered : Enters r r' R M R' M') (hR : R.Le R') :
    Entering c (s.push v) low first last vs ss ((v.name, x) :: env)
      (Function.update place env.length M.size) R' M' where
  holds := by
    have hholds := h.holds.mono hR hentered.size fun b hb => hentered.bytes b (h.holds.lt_of_owns hb)
    exact hholds.push hv fun b hcovers howns => Nat.not_lt.2 hcovers.1 (h.holds.lt_of_owns howns)
  proper := hM
  passed := hpassed.mono hentered.size fun b _ hb => hentered.bytes b (hb.trans_le h.below)
  above := h.above
  below := h.below.trans hentered.size
  apart b hb := by
    have hlow := h.above
    have hhigh := h.below
    have hend := hpassed.le
    obtain howns | hcovers := (Env.places_push _ _ _).owns hb
    · exact h.apart b howns
    · grind [Value.Covers]

theorem Passed.of_scalar {high s} (h : Passed c M low high (x :: vs) (s :: ss)) (hscalar : x.isStruct = false) :
    x.Fits c ∧ s = x.scalar ∧ Passed c M low high vs ss := by
  cases h with
  | scalar hx _ h => exact ⟨hx, rfl, h⟩
  | struct _ hstruct => cases hscalar.symm.trans hstruct

/-- **A parameter becomes a variable.** -/
theorem declareParameter_enters (hlimit : setting.limit = some Memory.limit) (numbers : Binary64 → Prop) {p id}
    (hp : p.value = .register p.ty.irType id) :
    Attains (declareParameter p) w fun code w' => w.Begins numbers w' ∧
      ∀ {site : Site} {rest} {low first last} {x} {s} {vs} {ss}
        {env} {place} {R} {M : Memory}, setting.catalog.LaidIn site.program →
        Entering setting.catalog w.scope low first last (x :: vs) (s :: ss) env place R M → p.ty = x.ty →
        R.argument p.value = .ok s → R.Blank w.fresh w'.fresh →
          site.Simulates (if !x.isStruct then setting.reserve x.ty else pure ⟨⟩) code rest R M fun _ R' M' =>
            Enters w.fresh w'.fresh R M R' M' ∧ ∃ first' place',
              Entering setting.catalog w'.scope low first' last vs ss ((p.name.symbol, x) :: env) place' R' M' := by
  refine (declareParameter_ensures p w).attains.mono fun code w' _ hres => ?_
  obtain ⟨-, rfl, rfl⟩ := hres
  unfold Incoming.code Incoming.toVariable
  by_cases hlin : p.ty.isLinear = true
  · simp only [if_pos hlin]
    refine ⟨⟨le_rfl, fun hw => hw.push ⟨fun _ hvalue => by cases hvalue; rw [hp]; trivial, fun h => by cases h⟩⟩, ?_⟩
    intro site rest low first last x s vs ss env place R M hlaid henter hty hvalue hblank
    have hstruct : x.isStruct = true := by rw [← Value.isLinear_ty, ← hty, hlin]
    rw [hstruct]
    cases henter.passed with
    | scalar _ hscalar => cases hscalar.symm.trans hstruct
    | struct hx _ hfirst hlies hpassed =>
      rename_i a
      refine .pure ⟨⟨.refl _ _ R, le_rfl, fun _ _ => rfl⟩, _, _, .struct ?_ hfirst hpassed henter⟩
      rw [hp] at hvalue
      refine ⟨hty, hx, hlies.has, fun _ => ⟨rfl, hlies, _, rfl, ?_⟩, fun h => ?_, fun h => ?_, fun h => ?_,
        fun h => by cases h⟩
      · rw [hp]
        exact hvalue
      all_goals
        rw [hlin] at h
        cases h
  simp only [if_neg hlin]
  rw [Bool.not_eq_true] at hlin
  constructor
  · refine ⟨Nat.le_succ _, fun hw => hw.push ?_⟩
    split
    · exact ⟨fun _ hvalue => by cases hvalue; rw [hp]; trivial, fun _ => ⟨_, rfl⟩⟩
    · exact ⟨fun _ hvalue => (by cases hvalue), fun hdirty => by cases hdirty⟩
  intro site rest low first last x s vs ss env place R M hlaid henter hty hvalue hblank
  rw [hty] at hlin hp ⊢
  have hscalar : x.isStruct = false := by rw [← Value.isLinear_ty, hlin]
  obtain ⟨hx, rfl, hpassed⟩ := henter.passed.of_scalar hscalar
  have hR : R.Le (R.set w.fresh (.address M.size)) := .set (hblank _ le_rfl (Nat.lt_succ_self _)) _
  have hvalue := hR.argument hvalue
  have hroom (rest : Code) : site.Simulates _ _ rest R M _ := .room hlimit hlaid hx henter.proper w.fresh
  rw [hscalar]
  by_cases hcaching : w.scope.caching = true
  · simp only [if_pos hcaching]
    refine (hroom rest).mono fun _ R' M' hroom => ?_
    obtain ⟨rfl, hentered, hM', hhas, -⟩ := hroom
    refine ⟨hentered, first, _, henter.scalar ?_ hpassed hM' hentered hR⟩
    rw [hp] at hvalue
    refine ⟨rfl, hx, hhas, fun h => ?_, fun _ => ⟨_, rfl, R.argument_set_self ..⟩, fun _ value hcache => ?_,
      fun _ hcache => (by cases hcache), fun _ => ⟨_, rfl⟩⟩
    · rw [hlin] at h
      cases h
    cases hcache
    rw [hp]
    exact hvalue
  simp only [if_neg hcaching]
  obtain ⟨kind, hkind, -⟩ := hx.primitive hscalar
  refine Site.Simulates.behind ((hroom _).mono fun _ R' M' hroom => ?_)
  obtain ⟨rfl, hentered, hM', hhas, -⟩ := hroom
  obtain ⟨hpatched, hothers⟩ := hhas.patch
  have hentered' : Enters w.fresh (w.fresh + 1) R M (R.set w.fresh (.address M.size)) (M'.patch M.size x.bytes) :=
    ⟨hentered.changes, by rw [Memory.size_patch]; exact hentered.size, fun b hb =>
      (hothers b fun hcovers => Nat.not_lt.2 hcovers.1 hb).trans (hentered.bytes b hb)⟩
  refine ⟨_, M'.patch M.size x.bytes, Memory.size_patch .., ?_, hentered', first, _,
    henter.scalar ?_ hpassed (hM'.patch ..) hentered' hR⟩
  · rw [hp, hkind] at hvalue ⊢
    exact .store hM' (R.argument_set_self ..) hx hkind hvalue hhas
  · refine ⟨rfl, hx, hpatched.has, fun h => ?_, fun _ => ⟨_, rfl, R.argument_set_self ..⟩, fun _ value hcache => ?_,
      fun _ _ => hpatched, fun hdirty => by cases hdirty⟩
    · rw [hlin] at h
      cases h
    · cases hcache

/-- **The parameters of a function** become its variables. -/
theorem declareParameters_enters (hlimit : setting.limit = some Memory.limit) (numbers : Binary64 → Prop) {incoming}
    (hincoming : ∀ p ∈ incoming, ∃ id, p.value = .register p.ty.irType id) :
    Attains (declareParameters incoming) w fun code w' => w.Begins numbers w' ∧
      ∀ {site : Site} {rest : Code} {low first last} {parameters} {vs} {ss}
        {env} {place} {R} {M}, setting.catalog.LaidIn site.program →
        Entering setting.catalog w.scope low first last vs ss env place R M →
        incoming.map Incoming.name = parameters.map Parameter.name → incoming.map Incoming.ty = vs.map Value.ty →
        Forall₂ (fun p s => R.argument p.value = .ok s) incoming ss → R.Blank w.fresh w'.fresh →
          site.Simulates (setting.enter env parameters vs) code rest R M fun env' R' M' =>
            Enters w.fresh w'.fresh R M R' M' ∧ ∃ first' place',
              Entering setting.catalog w'.scope low first' last [] [] env' place' R' M' := by
  induction incoming generalizing w with
  | nil =>
    refine .pure ⟨⟨le_rfl, id⟩, ?_⟩
    intro site rest low first last parameters vs ss env place R M hlaid henter hnames htypes hvals hblank
    obtain rfl : parameters = [] := map_eq_nil_iff.1 hnames.symm
    obtain rfl : vs = [] := map_eq_nil_iff.1 htypes.symm
    cases hvals
    exact .pure ⟨⟨.refl _ _ R, le_rfl, fun _ _ => rfl⟩, first, place, henter⟩
  | cons p incoming ih =>
    obtain ⟨⟨id, hp⟩, hincoming⟩ := forall_mem_cons.1 hincoming
    refine .bind ((declareParameter_enters hlimit numbers hp).mono fun code w1 _ hfirst => ?_)
    refine .bind ((ih hincoming).mono fun more w' _ hrest => .pure ?_)
    obtain ⟨hbegins, hfirst⟩ := hfirst
    obtain ⟨hbegins', hrest⟩ := hrest
    refine ⟨⟨hbegins.fresh.trans hbegins'.fresh, fun h => hbegins'.admitted (hbegins.admitted h)⟩, ?_⟩
    intro site rest low first last parameters vs ss env place R M hlaid henter hnames htypes hvals hblank
    obtain ⟨s, ss, hvalue, hothers, rfl⟩ := forall₂_cons_left_iff.1 hvals
    obtain ⟨q, parameters, rfl, hname, hnames⟩ := map_eq_cons_iff.1 hnames.symm
    obtain ⟨x, vs, rfl, hty, htypes⟩ := map_eq_cons_iff.1 htypes.symm
    rw [Setting.enter_cons, hname]
    have hblank1 := hblank.mono le_rfl hbegins'.fresh
    refine Site.Simulates.bind (hfirst hlaid henter hty.symm hvalue hblank1) fun _ R1 M1 hpost => ?_
    obtain ⟨hentered, first', place', henter'⟩ := hpost
    refine (hrest hlaid henter' hnames.symm htypes.symm
      (hothers.imp fun p s h => (hentered.changes.le hblank1).argument h)
      ((hblank.mono hbegins.fresh le_rfl).changes hentered.changes (.inr le_rfl))).mono
      fun env' R' M' hpost => ⟨hentered.append hpost.1 hbegins.fresh hbegins'.fresh, hpost.2⟩

/-! ### Functions -/

/-- What a function comes to when its procedure is begun at a moment: the procedure is left with the result, and all
bytes below what was handed over are as they were. -/
def Moment.Answers (m : IR.Module) (c : Catalog) (t : TypeRef) (low slot : Nat) (s : Moment) (callers : List Caller)
    (x : Eval (Option Value)) : Prop :=
  Ensures x s.memory.size
    (fun result used => ∃ out M', M'.size = used ∧ Moment.Exits m s callers out M' ∧ M'.Proper ∧
      s.memory.size ≤ M'.size ∧ (∀ b < low, M'.byteAt b = s.memory.byteAt b) ∧ Returned c M' slot t result out)
    fun stop _ => ∃ e, stop = .fails e ∧ Moment.Halts m s (.error e)

/-- **The code of a function does what the function means.** -/
theorem lowerEntry_answers (hk : k.Sound) (hvars : path.scope.vars = []) (hahead : (path.label : Nat) < path.fresh)
    (hgoes : path.returned = false) {incoming} (hincoming : ∀ p ∈ incoming, ∃ id, p.value = .register p.ty.irType id)
    {f : Function} {body} (hlits : ∀ l ∈ body.literals, l.Admitted k.numbers)
    (htypes : ∀ ty ∈ body.writtenTypes, ty.isDirect = true)
    (hnames : incoming.map Incoming.name = f.source.parameters.map Parameter.name) :
    Attains (lowerEntry k.ctx path.label incoming body) path
      fun code path' => ∃ rest, code = .label path.label :: rest ∧ ∀ {site low last slot vs ss R M},
        k.Hosts site → site.frame.procedure.Orderly → site.frame.procedure.Contains rest →
        site.frame.label = path.label → M.Proper → incoming.map Incoming.ty = vs.map Value.ty →
        Forall₂ (fun p s => R.argument p.value = .ok s) incoming ss → Passed k.catalog M low last vs ss →
        last ≤ M.size →
        (k.ctx.returnType.isLinear = true → last ≤ slot) → R.Blank path.fresh path'.fresh → k.Slot R M slot →
          (site.moment R M rest).Answers k.program k.catalog k.ctx.returnType low slot k.callers
            (k.setting.evalBody f body vs) := by
  have hlimit : k.setting.limit = some Memory.limit := rfl
  refine .bind (.ofWork ((declareParameters_enters hlimit k.numbers hincoming).mono fun parameters w _ hparams => ?_))
  obtain ⟨hbegins, hparams⟩ := hparams
  have hadmitted : w.scope.Admitted k.numbers := hbegins.admitted (by rw [Scope.Admitted, hvars]; simp)
  have hahead' : (path.label : Nat) < w.fresh := hahead.trans_le hbegins.fresh
  have hbody := @lowerBody_acts k { path with toWorkspace := w } body hk hadmitted hahead' hgoes hlits htypes
  refine .bind (hbody.mono fun code path' _ hbody => .pure ⟨parameters ++ code, rfl, ?_⟩)
  obtain ⟨hleft, hacts⟩ := hbody
  intro site low last slot vs ss R M hsite hp hcode hlabel hM hty hvals hpassed hlast hbelow hblank hslot
  rw [← append_nil code] at hcode ⊢
  have hempty : path.scope.Holds k.catalog R M (fun _ => 0) [] :=
    ⟨by rw [hvars]; rfl, fun id v hv => (by rw [Scope.get?, hvars] at hv; cases hv), fun _ _ _ _ _ h => by cases h⟩
  have henter : Entering k.catalog path.scope low low last vs ss [] (fun _ => 0) R M :=
    ⟨hempty, hM, hpassed, le_rfl, hlast, fun _ howns => by obtain ⟨_, _, h, -⟩ := howns; cases h⟩
  have hblank1 := hblank.mono le_rfl hacts.advances.fresh
  have hbegin : site.Simulates _ parameters (code ++ []) R M _ :=
    hparams (hk.laidIn hsite) henter hnames hty hvals hblank1
  refine Ensures.bind (Ensures.mono hbegin (fun env used _ hok => ?_) fun stop _ _ hstop => ?_)
  · obtain ⟨R1, M1, rfl, hsteps, hentered, first', place', henter'⟩ := hok
    have hle := hentered.changes.le hblank1
    have henacts := hacts.enacts hsite hp hcode.drop hlabel henter'.holds henter'.proper
      ((hblank.mono hbegins.fresh le_rfl).changes hentered.changes (.inr le_rfl))
      (hslot.mono hle hentered.size)
    refine Ensures.bind (Ensures.mono henacts (fun flow used _ hleads => ?_) fun stop _ _ hstop => ?_)
    · cases flow with
      | next env' =>
        obtain ⟨hgoes', -⟩ := hleads
        cases hleft.symm.trans hgoes'
      | returned result =>
        obtain ⟨out, M', hsize, hexits, hclears, hret⟩ := hleads
        rw [hsite.program, hsite.callers] at hexits
        rw [hsite.program] at hsteps
        refine ⟨out, M', hsize, hsteps.exits hexits, hclears.proper, hentered.size.trans hclears.size, fun b hb => ?_,
          hret⟩
        have hlow := hpassed.le
        have hold : b < M.size := by omega
        rw [hclears.spares b (hold.trans_le hentered.size) (fun howns => Nat.not_lt.2 (henter'.apart b howns).1 hb)
          fun hlin => hb.trans_le (hlow.trans (hbelow hlin))]
        exact hentered.bytes b hold
    obtain ⟨e, rfl, hhalts⟩ := hstop
    rw [hsite.program] at hsteps hhalts
    exact ⟨e, rfl, hsteps.halts hhalts⟩
  · simp_all [hsite.program]

end Lowering
