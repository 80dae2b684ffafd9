import Lowering.Proofs.Body.Statement
import Lowering.Proofs.Machine.Blocks
import Lowering.Proofs.Simulation.Join
/-!
# Statements that lead on to the next one, or out of the function

Code with branches does not stay inside one block, so what it does depends on where it stands in the procedure
(`IR.Procedure.Contains`). `Scene.Enacts` says that running such code does what a statement means. If the statement
leads on, the code comes to what stands behind it, in whatever block that is, and the variables stand for their values
(`Scene.Leads`). If it leads out of the function, the procedure is left with the result, and memory that belonged to
nobody is as it was, except where the result was to go.
-/

namespace Lowering

open IR (Code Local)
open Meaning

/-! ### Places in a procedure -/

/-- Two places in one call of a procedure. -/
structure Site.Alike (site site' : Site) : Prop where
  program : site'.program = site.program
  callers : site'.callers = site.callers
  procedure : site'.frame.procedure = site.frame.procedure

variable {k : Scene} {M' : Memory}

namespace Site.Alike

variable {site site' site'' : Site}

theorem refl (site : Site) : site.Alike site := ⟨rfl, rfl, rfl⟩

theorem trans (h : site.Alike site') (h' : site'.Alike site'') : site.Alike site'' :=
  ⟨h'.program.trans h.program, h'.callers.trans h.callers, h'.procedure.trans h.procedure⟩

theorem enter (site : Site) (label : Local) : site.Alike (site.enter label) := ⟨rfl, rfl, rfl⟩

theorem hosts (h : site.Alike site') (hsite : k.Hosts site) : k.Hosts site' :=
  ⟨h.program.trans hsite.program, h.callers.trans hsite.callers⟩

end Site.Alike

/-- A moment of a call, with some code to come. -/
abbrev Site.moment (site : Site) (R : Registers) (M : Memory) (code : Code) : Moment :=
  ⟨site.holding R code, site.callers, M⟩

/-! ### What statements do to paths -/

/-- What lowering a statement does to a path. -/
structure Path.Advances (numbers : Binary64 → Prop) (path path' : Path) : Prop
    extends path.toWorkspace.Proceeds numbers path'.toWorkspace where
  label : path'.label = path.label ∨ (path.fresh : Nat) ≤ path'.label ∧ (path'.label : Nat) < path'.fresh

namespace Path.Advances

variable {numbers : Binary64 → Prop} {path path' path'' : Path}

theorem of_stays (h : path.Stays path') : path.Advances numbers path' :=
  ⟨⟨h.scope ▸ .refl _, h.fresh, fun ha => h.scope ▸ ha⟩, .inl h.label⟩

theorem trans (h : path.Advances numbers path') (h' : path'.Advances numbers path'') :
    path.Advances numbers path'' where
  toProceeds := h.toProceeds.trans h'.toProceeds
  label := by
    have hfresh := h.fresh
    have hfresh' := h'.fresh
    obtain hlabel' | hlabel' := h'.label
    · rw [hlabel']
      exact h.label.imp id fun hlabel => ⟨hlabel.1, hlabel.2.trans_le hfresh'⟩
    · exact .inr ⟨hfresh.trans hlabel'.1, hlabel'.2⟩

theorem ahead (h : path.Advances numbers path') (hpath : (path.label : Nat) < path.fresh) :
    (path'.label : Nat) < path'.fresh := by
  obtain hlabel | hlabel := h.label
  · rw [hlabel]
    exact hpath.trans_le h.fresh
  · exact hlabel.2

theorem length (h : path.Advances numbers path') : path.scope.vars.length ≤ path'.scope.vars.length := by
  obtain hzero | hpos := Nat.eq_zero_or_pos path.scope.vars.length
  · omega
  have hlast : path.scope.vars.length - 1 < path.scope.vars.length := by omega
  obtain ⟨v, hv, -⟩ := h.continues.vars _ _ (List.getElem?_eq_getElem hlast)
  have := (List.getElem?_eq_some_iff.1 hv).1
  omega

end Path.Advances

/-! ### Doing what a statement means -/

/-- Where a structure goes that is returned. -/
def Scene.Slot (k : Scene) (R : Registers) (M : Memory) (slot : Nat) : Prop :=
  k.ctx.returnType.isLinear = true → (∃ a, k.ctx.returnSlot = some a ∧ R.argument a = .ok (.address slot)) ∧
    ∃ size, k.catalog.sizeOf? k.ctx.returnType = some size ∧ M.Has slot size

theorem Scene.Slot.mono (h : k.Slot R M slot) (hR : R.Le R') (hsize : M.size ≤ M'.size) :
    k.Slot R' M' slot := fun hlin => by
  obtain ⟨⟨a, ha, haddr⟩, size, hsizeOf, hhas⟩ := h hlin
  exact ⟨⟨a, ha, hR.argument haddr⟩, size, hsizeOf, hhas.mono hsize⟩

/-- Memory behind a function that was left: nobody's bytes are as they were, but for where the result was to go. -/
structure Scene.Clears (k : Scene) (slot : Nat) (env : Env) (place : Nat → Nat) (M M' : Memory) : Prop where
  proper : M'.Proper
  size : M.size ≤ M'.size
  spares : ∀ b < M.size, ¬ env.Owns place b → (k.ctx.returnType.isLinear = true → b < slot) → M'.byteAt b = M.byteAt b

theorem Scene.Clears.after
    (h : k.Clears slot env1 place1 M1 M') (htidy : Tidy env place first last R M env1 place1 R1 M1) :
    k.Clears slot env place M M' where
  proper := h.proper
  size := htidy.size.trans h.size
  spares b hb howns hslot := by
    obtain ⟨howns1, hbyte⟩ := htidy.spares b hb howns
    exact (h.spares b (hb.trans_le htidy.size) howns1 hslot).trans hbyte

/-- Where a statement leads from a moment `s` on, at which variables are in `R` and `M`: to the code `rest` on a path,
or out of the function. -/
def Scene.Leads (k : Scene) (path : Path) (slot first last : Nat) (rest : Code) (site : Site) (s : Moment) (env : Env)
    (place : Nat → Nat) (R : Registers) (M : Memory) : Flow → Nat → Prop
  | .next env', used => path.returned = false ∧ ∃ site' place' R' M', M'.size = used ∧ site.Alike site' ∧
      site'.frame.label = path.label ∧ Moment.Steps site.program s (site'.moment R' M' rest) ∧
      Tidy env place first last R M env' place' R' M' ∧ path.scope.Holds k.catalog R' M' place' env'
  | .returned result, used => ∃ out M', M'.size = used ∧ Moment.Exits site.program s site.callers out M' ∧
      k.Clears slot env place M M' ∧ Returned k.catalog M' slot k.ctx.returnType result out

/-- **Code does what a statement means.** -/
def Scene.Enacts (k : Scene) (path : Path) (slot first last : Nat) (rest : Code) (site : Site) (x : Eval Flow)
    (code : Code) (env : Env) (place : Nat → Nat) (R : Registers) (M : Memory) : Prop :=
  Ensures x M.size (k.Leads path slot first last rest site (site.moment R M code) env place R M)
    fun stop _ => ∃ e, stop = .fails e ∧ Moment.Halts site.program (site.moment R M code) (.error e)

section Enacts

variable {k : Scene} {path path' : Path} {slot first last : Nat} {rest code more : Code} {site site1 : Site}
  {s s1 : Moment} {x : Eval Flow} {env env1 : Env} {place place1 : Nat → Nat} {R R1 : Registers} {M M1 : Memory}

theorem Scene.Leads.after (h : k.Leads path slot first last rest site1 s1 env1 place1 R1 M1 flow used)
    (hsteps : Moment.Steps site.program s s1) (halike : site.Alike site1)
    (htidy : Tidy env place first last R M env1 place1 R1 M1) :
    k.Leads path slot first last rest site s env place R M flow used := by
  rcases flow with env' | result
  · obtain ⟨hgoes, site', place', R', M', hsize, halike', hlabel, hsteps', htidy', hholds⟩ := h
    rw [halike.program] at hsteps'
    exact ⟨hgoes, site', place', R', M', hsize, halike.trans halike', hlabel, hsteps.trans hsteps',
      htidy.trans htidy', hholds⟩
  obtain ⟨out, M', hsize, hexits, hclears, hret⟩ := h
  rw [halike.program, halike.callers] at hexits
  exact ⟨out, M', hsize, hsteps.exits hexits, hclears.after htidy, hret⟩

namespace Scene.Enacts

/-- Code that does nothing a statement would notice may run before. -/
theorem after (h : k.Enacts path slot first last rest site1 x more env1 place1 R1 M1)
    (hsteps : Moment.Steps site.program (site.moment R M code) (site1.moment R1 M1 more)) (halike : site.Alike site1)
    (htidy : Tidy env place first last R M env1 place1 R1 M1) (hsize : M1.size = M.size) :
    k.Enacts path slot first last rest site x code env place R M := by
  unfold Scene.Enacts at h ⊢
  rw [hsize] at h
  refine Ensures.mono h (fun flow used _ hleads => hleads.after hsteps halike htidy) fun stop used _ hstop => ?_
  obtain ⟨e, rfl, hhalts⟩ := hstop
  rw [halike.program] at hhalts
  exact ⟨e, rfl, hsteps.halts hhalts⟩

/-- What is evaluated before a statement is run before it. -/
theorem bind {α : Type} {y} {f : α → Eval Flow} {Q} (h : site.Simulates y code more R M Q)
    (hf : ∀ a R1 M1, Q a R1 M1 → ∃ env1 place1, Tidy env place first last R M env1 place1 R1 M1 ∧
      k.Enacts path slot first last rest site (f a) more env1 place1 R1 M1) :
    k.Enacts path slot first last rest site (y >>= f) (code ++ more) env place R M := by
  refine Ensures.bind (Ensures.mono h (fun a used _ hok => ?_) fun _ _ _ hstop => hstop)
  obtain ⟨R1, M1, rfl, hsteps, hpost⟩ := hok
  obtain ⟨env1, place1, htidy, henacts⟩ := hf a R1 M1 hpost
  refine Ensures.mono henacts (fun flow used _ hleads => hleads.after hsteps (.refl site) htidy)
    fun stop used _ hstop => ?_
  obtain ⟨e, rfl, hhalts⟩ := hstop
  exact ⟨e, rfl, hsteps.halts hhalts⟩

theorem andThen (h : k.Enacts path' slot first1 last1 more site x code env place R M)
    (hfirst : first ≤ first1) (hlast : last1 ≤ last)
    (hf : ∀ {site1 env1 place1 R1 M1}, path'.returned = false → site.Alike site1 → site1.frame.label = path'.label →
      Tidy env place first1 last1 R M env1 place1 R1 M1 → path'.scope.Holds k.catalog R1 M1 place1 env1 →
        k.Enacts path slot first last rest site1 (f env1) more env1 place1 R1 M1) :
    k.Enacts path slot first last rest site (x >>= Flow.andThen f) code env place R M := by
  refine Ensures.bind (Ensures.mono h (fun flow used _ hleads => ?_) fun _ _ _ hstop => hstop)
  cases flow with
  | returned => exact hleads
  | next env1 =>
    obtain ⟨hgoes, site1, place1, R1, M1, rfl, halike, hlabel, hsteps, htidy, hholds⟩ := hleads
    refine Ensures.mono (hf hgoes halike hlabel htidy hholds) (fun flow used _ hleads =>
      hleads.after hsteps halike (htidy.mono hfirst hlast)) fun stop used _ hstop => ?_
    obtain ⟨e, rfl, hhalts⟩ := hstop
    rw [halike.program] at hhalts
    exact ⟨e, rfl, hsteps.halts hhalts⟩

theorem next (hgoes : path.returned = false)
    (hsteps : Moment.Steps site.program (site.moment R M code) (site1.moment R' M' rest)) (halike : site.Alike site1)
    (hlabel : site1.frame.label = path.label) (hsize : M'.size = M.size)
    (htidy : Tidy env place first last R M env' place' R' M') (hholds : path.scope.Holds k.catalog R' M' place' env') :
    k.Enacts path slot first last rest site (pure (.next env')) code env place R M :=
  ⟨hgoes, site1, place', R', M', hsize, halike, hlabel, hsteps, htidy, hholds⟩

theorem of_simulates (hgoes : path.returned = false) (hlabel : site.frame.label = path.label)
    (h : site.Simulates x code rest R M fun flow R' M' => ∃ env' place', flow = .next env' ∧
      Tidy env place first last R M env' place' R' M' ∧ path.scope.Holds k.catalog R' M' place' env') :
    k.Enacts path slot first last rest site x (code ++ rest) env place R M := by
  refine Ensures.mono h (fun flow used _ hok => ?_) fun _ _ _ hstop => hstop
  obtain ⟨R', M', hsize, hsteps, env', place', rfl, htidy, hholds⟩ := hok
  exact ⟨hgoes, site, place', R', M', hsize, .refl site, hlabel, hsteps, htidy, hholds⟩

theorem widen (h : k.Enacts path slot first last rest site x code env place R M)
    (hfirst : first' ≤ first) (hlast : last ≤ last') :
    k.Enacts path slot first' last' rest site x code env place R M := by
  refine Ensures.mono h (fun flow used _ hleads => ?_) fun _ _ _ hstop => hstop
  cases flow with
  | returned => exact hleads
  | next env' =>
    obtain ⟨hgoes, site', place', R', M', hsize, halike, hlabel, hsteps, htidy, hholds⟩ := hleads
    exact ⟨hgoes, site', place', R', M', hsize, halike, hlabel, hsteps, htidy.mono hfirst hlast, hholds⟩

end Scene.Enacts

end Enacts

/-- A statement, and code that does what it means, from one path to another. -/
structure Acts (k : Scene) (path path' : Path) (x : Env → Eval Flow) (code : Code) : Prop where
  advances : path.Advances k.numbers path'
  enacts : ∀ {site : Site} {rest : Code} {env : Env} {place : Nat → Nat} {R : Registers} {M : Memory} {slot : Nat},
    k.Hosts site → site.frame.procedure.Orderly → site.frame.procedure.Contains (code ++ rest) →
    site.frame.label = path.label → path.scope.Holds k.catalog R M place env → M.Proper →
    R.Blank path.fresh path'.fresh → k.Slot R M slot →
      k.Enacts path' slot path.fresh path'.fresh rest site (x env) (code ++ rest) env place R M

theorem Plays.acts (h : Plays k path.toWorkspace w s code) (hgoes : path.returned = false) :
    Acts k path { path with toWorkspace := w } (fun env => k.setting.evalStatement env s) code where
  advances := ⟨h.proceeds, .inl rfl⟩
  enacts hsite _ _ hlabel hholds hM hblank _ := .of_simulates hgoes hlabel (h.simulates hsite hholds hM hblank)

theorem Attains.acts {x : Work Code} (h : Attains x path.toWorkspace fun code w => Plays k path.toWorkspace w s code)
    (hgoes : path.returned = false) : Attains (Build.ofWork x) path fun code path' =>
      Acts k path path' (fun env => k.setting.evalStatement env s) code :=
  .ofWork (h.mono fun _ _ _ hcode => hcode.acts hgoes)

end Lowering
