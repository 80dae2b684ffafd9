import Lowering.Proofs.Simulation.Expression
/-!
# Statements without branches do what they mean

A variable may be written to memory or only be known, a structure may be copied or be taken over by the variable it is
assigned to; in the end the variable stands for the new value, and the others for what they did. The bytes of a
structure that is taken over were nobody's before, and bytes that were nobody's and are older stay so (`Tidy`).
-/

namespace Lowering

open List
open IR (Argument Code)
open Meaning

/-! ### What statements leave alone -/

/-- What a statement leaves alone: registers outside of a range, and bytes that are no variable's, which stay so. -/
structure Tidy (env : Env) (place : Nat → Nat) (first last : Nat) (R : Registers) (M : Memory) (env' : Env)
    (place' : Nat → Nat) (R' : Registers) (M' : Memory) : Prop where
  changes : Registers.Changes first last R R'
  le : R.Le R'
  proper : M'.Proper
  size : M.size ≤ M'.size
  spares : ∀ b, b < M.size → ¬ env.Owns place b → ¬ env'.Owns place' b ∧ M'.byteAt b = M.byteAt b

namespace Tidy

variable {env env' env'' : Env} {place place' place'' : Nat → Nat} {first last : Nat} {R R' R'' : Registers}
  {M M' M'' : Memory}

theorem of_quiet (h : Quiet env place first last R M R' M') : Tidy env place first last R M env place R' M' :=
  ⟨h.changes, h.le, h.proper, h.size, fun b hb howns => ⟨howns, h.spares b hb howns⟩⟩

theorem mono {first' last'} (h : Tidy env place first last R M env' place' R' M') (hfirst : first' ≤ first)
    (hlast : last ≤ last') : Tidy env place first' last' R M env' place' R' M' :=
  ⟨h.changes.mono hfirst hlast, h.le, h.proper, h.size, h.spares⟩

theorem trans (h : Tidy env place first last R M env' place' R' M')
    (h' : Tidy env' place' first last R' M' env'' place'' R'' M'') :
    Tidy env place first last R M env'' place'' R'' M'' where
  changes := h.changes.trans h'.changes
  le := h.le.trans h'.le
  proper := h'.proper
  size := h.size.trans h'.size
  spares b hb howns := by
    obtain ⟨howns', hbyte⟩ := h.spares b hb howns
    obtain ⟨howns'', hbyte'⟩ := h'.spares b (hb.trans_le h.size) howns'
    exact ⟨howns'', hbyte'.trans hbyte⟩

end Tidy

/-- What lowering a statement without branches does to a workspace. -/
structure Workspace.Proceeds (numbers : Binary64 → Prop) (w w' : Workspace) : Prop where
  continues : w.scope.Continues w'.scope
  fresh : (w.fresh : Nat) ≤ w'.fresh
  admitted : w.scope.Admitted numbers → w'.scope.Admitted numbers

namespace Workspace.Proceeds

variable {numbers : Binary64 → Prop} {w w' w'' : Workspace}

theorem of_steady (h : w.Steady numbers w') : w.Proceeds numbers w' :=
  ⟨.of_refines h.refines, h.fresh, h.admitted⟩

theorem trans (h : w.Proceeds numbers w') (h' : w'.Proceeds numbers w'') : w.Proceeds numbers w'' :=
  ⟨h.continues.trans h'.continues, h.fresh.trans h'.fresh, fun ha => h'.admitted (h.admitted ha)⟩

end Workspace.Proceeds

/-! ### Writing variables -/

variable {id b distance : Nat} {v new : Value} {env : Env} {place : Nat → Nat} {c : Catalog} {ty : TypeName}

theorem Meaning.Value.Fits.length_eq (hc : c.Sound) {x y : Value} (hx : x.Fits c) (hy : y.Fits c) (hty : y.ty = x.ty) :
    y.bytes.length = x.bytes.length := by
  have := hy.size hc
  simp_all [hx.size hc]

section Writing

variable {c : Catalog} {R : Registers} {M M' : Memory} {s : Scope} {place : Nat → Nat} {env : Env} {id : Nat}
  {entry : String × Value} {y : Value}

/-- A variable gets another value of its type where it lies. -/
theorem Scope.Holds.refill (hc : c.Sound) (h : s.Holds c R M place env) {v v' : Variable} (hv : s.get? id = some v)
    (hname : v'.name = v.name) (hx : env.at? id = some (v.name, x)) (hsize : M'.size = M.size) (hty : y.ty = x.ty)
    (hvar : v'.Holds c R M' (place id) y) (hbytes : ∀ b, ¬ x.Covers (place id) b → M'.byteAt b = M.byteAt b) :
    (s.put id v').Holds c R M' place (env.put id y) := by
  obtain ⟨old, hold, hfits⟩ := h.vars id v hv
  cases hx.symm.trans hold
  have hupdate := h.update hv hname (.refl R) (Nat.le_of_eq hsize.symm) hvar fun other found hother hfound b hb => by
    have hapart := h.apart other id found _ hother hfound hx b hb
    simp_all [hfits.fits.length_eq hc hvar.fits hty, Value.Covers]
  simp_all

/-- **A structure is overwritten** where it lies. -/
theorem Scope.Holds.overwrite (hc : c.Sound) (h : s.Holds c R M place env) (hentry : env.at? id = some entry)
    (hstruct : entry.2.isStruct = true) (hsize : M'.size = M.size) (hy : y.Fits c) (hty : y.ty = entry.2.ty)
    (hholds : M'.Holds (place id) y) (hbytes : ∀ b, ¬ entry.2.Covers (place id) b → M'.byteAt b = M.byteAt b) :
    s.Holds c R M' place (env.put id y) := by
  obtain ⟨v, hv, hname, hvar⟩ := h.exists_var hentry
  have hlin : v.ty.isLinear = true := by rw [hvar.ty, Value.isLinear_ty, hstruct]
  have hvar' : v.Holds c R M' (place id) y := by
    refine ⟨hvar.ty.trans hty.symm, hy, hholds.has, fun _ => ?_, fun h => ?_, fun h => ?_, fun h => ?_, hvar.dirty⟩
    · exact ⟨(hvar.linear hlin).1, hholds, (hvar.linear hlin).2.2⟩
    all_goals
      rw [hlin] at h
      cases h
  have hrefill := h.refill hc hv rfl (by rw [hname]; exact hentry) hsize hty hvar' hbytes
  rwa [Scope.put_get? hv] at hrefill

theorem Meaning.Env.Owns.of_overwritten (hc : c.Sound) (hx : entry.2.Fits c) (hentry : env.at? id = some entry)
    (hy : y.Fits c) (hty : y.ty = entry.2.ty) (h : (env.put id y).Owns place b) : env.Owns place b := by
  rw [← Function.update_eq_self id place] at h
  obtain h | hcovers := (Env.places_put hentry y).owns h
  · exact h
  refine ⟨id, entry, hentry, ?_⟩
  unfold Value.Covers at hcovers ⊢
  rwa [hx.length_eq hc hy hty] at hcovers

end Writing

/-! ### Replacing parts of values -/

/-- What a value becomes when a part of it is replaced. -/
structure Meaning.Value.Replaced (c : Catalog) (v : Value) (steps : List Step) (distance : Nat) (new v' : Value) :
    Prop where
  goes : ∃ u, v.Goes steps distance u ∧ new.ty = u.ty ∧ new.bytes.length = u.bytes.length
  whole : steps = [] → v' = new
  fits : v'.Fits c
  ty : v'.ty = v.ty
  holds : ∀ {M M' : Memory} {a : Nat}, M.Holds a v → M.size ≤ M'.size →
    (∀ b, ¬ new.Covers (a + distance) b → M'.byteAt b = M.byteAt b) → M'.Holds (a + distance) new → M'.Holds a v'

theorem Meaning.Reaches.replaced (hc : c.Sound) {t : TypeRef}
    (h : Reaches c v accesses steps t distance u) (hnew : new.Fits c) (hty : new.ty = t) :
    ∃ v', v.put? c accesses new = some v' ∧ v.Replaced c steps distance new v' := by
  obtain ⟨v', hput, hfits, hty', hholds⟩ := h.write new hnew hty
  have hty := hty.trans h.ty.symm
  have hlen := h.fits.length_eq hc hnew hty
  refine ⟨v', hput, ⟨u, h.goes, hty, hlen⟩, fun hsteps => ?_, hfits, hty', fun hv hsize hbytes hnew => ?_⟩
  · rw [h.short hsteps] at hput
    exact (Option.some.inj hput).symm
  refine hholds hv hsize (fun b _ _ hb => hbytes b ?_) hnew
  unfold Value.Covers
  rwa [hlen]

theorem Meaning.Value.Fits.replaced (hc : c.Sound) (hv : v.Fits c) (hnew : new.Fits c) (hty : new.ty = v.ty) :
    v.Replaced c [] 0 new new :=
  ⟨⟨v, .here v, hty, hv.length_eq hc hnew hty⟩, fun _ => rfl, hnew, hty, fun _ _ _ h => h⟩

/-- Writing a part of a structure that a variable stands for. -/
theorem Scope.Holds.replace {R M} {s : Scope} {entry v' steps} (hc : c.Sound) (h : s.Holds c R M place env)
    (hentry : env.at? id = some entry) (hstruct : entry.2.isStruct = true)
    (hreplaced : entry.2.Replaced c steps distance new v') :
    M.Has (place id + distance) new.bytes.length ∧
      s.Holds c R (M.patch (place id + distance) new.bytes) place (env.put id v') ∧
      ∀ b, ¬ env.Owns place b → ¬ (env.put id v').Owns place b ∧
        (M.patch (place id + distance) new.bytes).byteAt b = M.byteAt b := by
  obtain ⟨v, hv, -, hvar⟩ := h.exists_var hentry
  have hlies : M.Holds (place id) entry.2 := (hvar.linear (by rw [hvar.ty, Value.isLinear_ty, hstruct])).2.1
  obtain ⟨u, hgoes, -, hlen⟩ := hreplaced.goes
  obtain ⟨hpart, hinside⟩ := hgoes.holds hlies
  have hhas : M.Has (place id + distance) new.bytes.length := hlen ▸ hpart.has
  obtain ⟨hpatched, hothers⟩ := hhas.patch
  have hsize := Memory.size_patch M (place id + distance) new.bytes
  have hcovers (b : Nat) (hb : new.Covers (place id + distance) b) : entry.2.Covers (place id) b := by
    unfold Value.Covers at hb ⊢
    omega
  refine ⟨hhas, ?_,
    fun b hb => ⟨fun howns => hb ?_, hothers b fun hcovers' => hb ⟨id, entry, hentry, hcovers b hcovers'⟩⟩⟩
  · exact h.overwrite hc hentry hstruct hsize hreplaced.fits hreplaced.ty
      (hreplaced.holds hlies (Nat.le_of_eq hsize.symm) hothers hpatched)
        fun b hb => hothers b fun hb' => hb (hcovers b hb')
  · exact howns.of_overwritten hc hvar.fits hentry hreplaced.fits hreplaced.ty

theorem Meaning.Value.Goes.isStruct_of_cons {u step rest} (h : v.Goes (step :: rest) distance u) :
    v.isStruct = true := by
  cases h
  rfl

variable {k : Scene} {w w' : Workspace}

/-- **Giving a variable a value.** A structure is taken over where it lies. -/
theorem writeVariable_simulates (c : Catalog) (numbers : Binary64 → Prop) (id : Nat) (value : Argument) :
    Attains (writeVariable id value) w fun code w' =>
      (w'.fresh = w.fresh ∧ w.scope.Continues w'.scope ∧
        (w.scope.Admitted numbers → value.value.Admitted numbers → w'.scope.Admitted numbers)) ∧
      ∀ {site : Site} {R} {M} {place} {env} {entry} {y}
        {a}, c.Sound → w.scope.Holds c R M place env → M.Proper → env.at? id = some entry → y.Fits c →
        y.ty = entry.2.ty → value.ty = y.ty.irType → R.argument value = .ok (y.handle a) →
        (y.isStruct = true → M.Holds a y ∧ ∀ b, y.Covers a b → ¬ env.Owns place b) →
          ∃ M', M'.size = M.size ∧ site.Runs code R M R M' ∧
            w'.scope.Holds c R M' (Function.update place id (if y.isStruct then a else place id)) (env.put id y) ∧
            ∀ b, ¬ env.Owns place b → M'.byteAt b = M.byteAt b := by
  refine (writeVariable_ensures id value w).attains.mono fun code w' _ hres => ?_
  obtain ⟨v, hv, hcases⟩ := hres
  constructor
  · obtain ⟨-, -, rfl⟩ | ⟨-, -, -, ⟨-, -, rfl⟩ | ⟨-, -, rfl⟩⟩ := hcases
    · exact ⟨rfl, .put hv ⟨rfl, rfl, rfl⟩, fun hw hvalue =>
        hw.put id ⟨fun _ hcache => (by cases hcache; exact hvalue), fun _ => ⟨_, rfl⟩⟩⟩
    · exact ⟨rfl, .put hv ⟨rfl, rfl, rfl⟩, fun hw hvalue =>
        hw.put id ⟨fun _ hcache => (by cases hcache; exact hvalue), fun _ => ⟨_, rfl⟩⟩⟩
    · exact ⟨rfl, .put hv ⟨rfl, rfl, rfl⟩, fun hw _ =>
        hw.put id ⟨fun _ hcache => (by cases hcache), fun hdirty => by cases hdirty⟩⟩
  intro site R M place env entry y a hc hholds hM hentry hy hty htype hvalue hstruct
  obtain ⟨x, hx, hvar⟩ := hholds.vars id v hv
  cases hentry.symm.trans hx
  have hlin' : y.isStruct = v.ty.isLinear := by rw [← Value.isLinear_ty, hty, hvar.ty]
  obtain ⟨hlin, rfl, rfl⟩ | ⟨hlin, address, hstor, hcases⟩ := hcases
  · have hy' := hlin'.trans hlin
    obtain ⟨hlies, hnobody⟩ := hstruct hy'
    rw [Value.handle_struct hy', Registers.argument, htype, hty, ← hvar.ty] at hvalue
    refine ⟨M, rfl, .nil, ?_, fun _ _ => rfl⟩
    rw [if_pos hy']
    refine hholds.update hv (by rfl) (.refl R) le_rfl ?_ fun other found hother hfound b hb =>
      ⟨rfl, fun hcovers => hnobody b hcovers ⟨other, found, hfound, hb⟩⟩
    refine ⟨hvar.ty.trans hty.symm, hy, hlies.has, fun _ => ⟨(hvar.linear hlin).1, hlies, _, rfl, hvalue⟩, fun h => ?_,
      fun h => ?_, fun h => ?_, fun _ => ⟨_, rfl⟩⟩
    all_goals
      rw [hlin] at h
      cases h
  have hlen := hvar.fits.length_eq hc hy hty
  rw [Value.handle_scalar (hlin'.trans hlin), Registers.argument, htype, hty, ← hvar.ty] at hvalue
  rw [hlin', hlin, if_neg Bool.false_ne_true, Function.update_eq_self]
  obtain ⟨-, rfl, rfl⟩ | ⟨-, rfl, rfl⟩ := hcases
  · have hknown := hvar.with_cache hlin hy (hvar.ty.trans hty.symm) hvalue hlen true
    exact ⟨M, rfl, .nil, hholds.refill hc hv (by rfl) hx rfl hty hknown fun _ _ => rfl, fun _ _ => rfl⟩
  obtain ⟨-, kind, hkind, hxkind⟩ := hvar.primitive hlin
  obtain ⟨address', hstor', haddr⟩ := hvar.stored hlin
  cases hstor.symm.trans hstor'
  have hhas : M.Has (place id) y.bytes.length := hlen ▸ hvar.has
  obtain ⟨hpatched, hothers⟩ := hhas.patch
  have hbytes (b : Nat) (hb : ¬ x.Covers (place id) b) : (M.patch (place id) y.bytes).byteAt b = M.byteAt b := by
    simp_all [Value.Covers]
  have hvar' : Variable.Holds c R (M.patch (place id) y.bytes) { v with cache := none, dirty := false } (place id) y :=
    ⟨hvar.ty.trans hty.symm, hy, hpatched.has, fun h => (by rw [hlin] at h; cases h), hvar.stored,
      fun _ _ h => (by cases h), fun _ _ => hpatched, fun h => (by cases h)⟩
  refine ⟨M.patch (place id) y.bytes, Memory.size_patch .., ?_, ?_, fun b hb => hbytes b fun h => hb ⟨id, _, hx, h⟩⟩
  · obtain ⟨ty, o⟩ := value
    rw [show ty = kind.irType from htype.trans (by rw [hty, hxkind]; rfl)]
    rw [hkind] at hvalue
    exact .store hM haddr hy (hty.trans hxkind) hvalue hhas
  · exact hholds.refill hc hv (by rfl) hx (Memory.size_patch ..) hty hvar' hbytes

/-! ### Storing -/

/-- What storing a value does, run where the value is there already. Bytes below `low` that are nobody's stay so. -/
def Stores (k : Scene) (w w' : Workspace) (l : Location) (value : Ready) (tail : Code) : Prop :=
  ∀ {site : Site} {R : Registers} {M : Memory} {place : Nat → Nat} {env : Env} {entry : String × Value}
    {distance low : Nat}
    {new v' : Value}, k.Hosts site → w.scope.Holds k.catalog R M place env → M.Proper → env.at? l.root = some entry →
    entry.2.Replaced k.catalog l.steps distance new v' → new.ty = l.ty → value.Gives k.catalog env low R M new →
    (∀ b, env.Owns place b → b < low) → R.Blank w.fresh w'.fresh →
      ∃ R' M' place', M'.size = M.size ∧ site.Runs tail R M R' M' ∧ Registers.Changes w.fresh w'.fresh R R' ∧
        M'.Proper ∧ w'.scope.Holds k.catalog R' M' place' (env.put l.root v') ∧
        ∀ b < low, ¬ env.Owns place b → ¬ (env.put l.root v').Owns place' b ∧ M'.byteAt b = M.byteAt b

/-- A variable takes a value over. A structure must be nobody's. -/
theorem writeVariable_stores (hk : k.Sound) {l : Location} {value} (hsteps : l.steps = [])
    (hlin : l.ty.isLinear = true → value.provenance = .temporary)
    (hadmitted : value.argument.value.Admitted k.numbers) :
    Attains (writeVariable l.root value.argument) w fun tail w' =>
      w.Proceeds k.numbers w' ∧ Stores k w w' l value tail := by
  refine (writeVariable_simulates k.catalog k.numbers l.root value.argument).mono fun tail _ _ hwrite => ?_
  obtain ⟨⟨hfresh, hcontinues, hscope⟩, hwrite⟩ := hwrite
  refine ⟨⟨hcontinues, Nat.le_of_eq hfresh.symm, fun hw => hscope hw hadmitted⟩, ?_⟩
  intro site R M place env entry distance low new v' hsite hholds hM hentry hreplaced hty hgives hlow hblank
  have hc := hk.laid.sound
  obtain rfl := hreplaced.whole hsteps
  obtain ⟨a, hvalue, hstruct⟩ := hgives.value
  have hnew (hnew : v'.isStruct = true) : low ≤ a := by
    refine (hstruct hnew).2 (hlin ?_)
    rw [← hty, Value.isLinear_ty, hnew]
  obtain ⟨M', hsize, hruns, hholds', hbytes⟩ :=
    hwrite hc hholds hM hentry hgives.fits hreplaced.ty hgives.argument hvalue
    fun h => ⟨(hstruct h).1, fun b hb howns => Nat.not_lt.2 ((hnew h).trans hb.1) (hlow b howns)⟩
  have hM' : M'.Proper := ⟨hsize ▸ hM.guarded, hsize ▸ hM.limited⟩
  refine ⟨R, M', _, hsize, hruns, .refl _ _ R, hM', hholds', fun b hb howns => ⟨fun howns' => ?_, hbytes b howns⟩⟩
  cases hkind : v'.isStruct with
  | true =>
    rw [hkind] at howns'
    obtain howns' | hcovers := (Env.places_put hentry v').owns howns'
    · exact howns howns'
    · exact Nat.not_lt.2 ((hnew hkind).trans hcovers.1) hb
  | false =>
    rw [hkind, if_neg Bool.false_ne_true, Function.update_eq_self] at howns'
    obtain ⟨v, -, -, hvar⟩ := hholds.exists_var hentry
    exact howns (howns'.of_overwritten hc hvar.fits hentry hgives.fits hreplaced.ty)

/-- Code that goes to the address of a structure at a location. -/
def GoesTo (k : Scene) (w w' : Workspace) (l : Location) (go : Code) (destination : Argument) : Prop :=
  ∀ {site : Site} {R : Registers} {M : Memory} {place : Nat → Nat} {env : Env} {entry : String × Value} {distance : Nat}
    {u : Value}, k.Hosts site → w.scope.Holds k.catalog R M place env → M.Proper → env.at? l.root = some entry →
    entry.2.isStruct = true → entry.2.Goes l.steps distance u → R.Blank w.fresh w'.fresh →
      ∃ R', site.Runs go R M R' M ∧ Quiet env place w.fresh w'.fresh R M R' M ∧
        w'.scope.Holds k.catalog R' M place env ∧ R'.argument destination = .ok (.address (place l.root + distance))

/-- A structure is copied to where it belongs. -/
theorem copyStructure_stores (hk : k.Sound) {l : Location} {value ref} (hlin : l.ty.linear? = some ref)
    {go destination} (hsteady : w.Steady k.numbers w') (hgo : GoesTo k w w' l go destination) :
    Attains (copyStructure ref destination value.argument) w' fun copy w'' =>
      w.Proceeds k.numbers w'' ∧ Stores k w w'' l value (go ++ copy) := by
  refine (copyStructure_simulates k.catalog ref destination value.argument).mono fun copy w'' _ hcopy => ?_
  obtain ⟨hscope, hfresh, hcopy⟩ := hcopy
  have hfresh : (w'.fresh : Nat) ≤ w''.fresh := by simp [hfresh]
  refine ⟨.of_steady (hsteady.trans (.of_scope hscope hfresh)), ?_⟩
  intro site R M place env entry distance low new v' hsite hholds hM hentry hreplaced hty hgives hlow hblank
  obtain ⟨u, hgoes, huty, -⟩ := hreplaced.goes
  have hnewty : new.ty = ⟨.struct ref, 1⟩ := hty.trans (TypeRef.linear?_eq_some hlin)
  have hnew : new.isStruct = true := by rw [← Value.isLinear_ty, hnewty]; rfl
  have hu : u.isStruct = true := by rw [← Value.isLinear_ty, ← huty, Value.isLinear_ty, hnew]
  have hstruct := hgoes.isStruct hu
  obtain ⟨R1, hruns1, hquiet1, hholds1, haddr⟩ :=
    hgo hsite hholds hM hentry hstruct hgoes (hblank.mono le_rfl hfresh)
  obtain ⟨hhas, hholds2, hspares⟩ := hholds1.replace hk.laid.sound hentry hstruct hreplaced
  obtain ⟨a, hvalue, hlies⟩ := hgives.value
  rw [Value.handle_struct hnew] at hvalue
  have hblank1 : R1.Blank w'.fresh w''.fresh :=
    (hblank.mono hsteady.fresh le_rfl).changes hquiet1.changes (.inr le_rfl)
  obtain ⟨R2, hchanges2, hruns2⟩ :=
    hcopy (hk.laidIn hsite) hM hgives.fits hnewty (hquiet1.le.argument hvalue) (hlies hnew).1 haddr hhas hblank1
  refine ⟨R2, _, place, Memory.size_patch .., hruns1.append hruns2, ?_, hM.patch .., ?_, fun b _ => hspares b⟩
  · exact (hquiet1.changes.mono le_rfl hfresh).trans (hchanges2.mono hsteady.fresh le_rfl)
  · exact (hholds2.mono (hchanges2.le hblank1) le_rfl fun _ _ => rfl).congr (by rw [hscope])

/-- **Storing a value** at a location: the code of the value, and then code that stores it. -/
theorem storeAt_stores (hk : k.Sound) {l} {value : Ready} (hepilog : value.epilog = [])
    (hadmitted : value.argument.value.Admitted k.numbers) :
    Attains (storeAt k.ctx l value) w fun code w' => ∃ tail, code = value.code ++ tail ∧
      w.Proceeds k.numbers w' ∧ Stores k w w' l value tail := by
  have hc := hk.laid.sound
  obtain ⟨root, steps, ty⟩ := l
  unfold storeAt
  simp only [hepilog, append_nil]
  split
  · next hlin =>
    have hscalar : ty.isLinear = true → value.provenance = .temporary := by
      intro h
      simp [TypeRef.isLinear, hlin] at h
    exact .bind ((@writeVariable_stores k w hk ⟨root, [], ty⟩ value rfl hscalar hadmitted).mono
      fun tail w' _ hstores => .pure ⟨tail, rfl, hstores⟩)
  · next ref hlin =>
    split
    · next hprovenance =>
      exact .bind ((@writeVariable_stores k w hk ⟨root, [], ty⟩ value rfl (fun _ => hprovenance) hadmitted).mono
        fun tail w' _ hstores => .pure ⟨tail, rfl, hstores⟩)
    split
    · next hself =>
      refine .pure ⟨[], (append_nil _).symm, .of_steady (.refl ..), ?_⟩
      intro site R M place env entry distance low new v' hsite hholds hM hentry hreplaced hty hgives hlow hblank
      obtain rfl := hreplaced.whole rfl
      obtain ⟨name, hname⟩ := hgives.owned root hself
      cases hentry.symm.trans hname
      have hput : env.put root v' = env := Env.put_self hentry
      exact ⟨R, M, place, rfl, .nil, .refl _ _ R, hM, by rwa [hput], fun b _ howns => by simp_all⟩
    refine .bind ((readVariable_simulates k.catalog k.numbers root).mono fun read w1 _ hread => ?_)
    obtain ⟨hsteady, -, hread⟩ := hread
    have hgo : GoesTo k w w1 ⟨root, [], ty⟩ read.1 read.2 := by
      intro site R M place env entry distance u hsite hholds hM hentry hstruct hgoes hblank
      obtain ⟨R', hruns, hquiet, hholds', -, hvalue⟩ := hread hholds hentry hM hblank
      obtain ⟨rfl, -⟩ := hgoes.of_isEmpty rfl
      rw [Value.handle_struct hstruct] at hvalue
      exact ⟨R', hruns, hquiet, hholds', hvalue⟩
    refine .bind ((copyStructure_stores hk hlin hsteady hgo).mono fun copy w' _ hstores => ?_)
    exact .pure ⟨read.1 ++ copy, append_assoc .., hstores⟩
  rename_i step rest
  refine .bind ((walkTo_simulates k.catalog k.numbers ⟨root, step :: rest, ty⟩ false).mono
    fun walk w1 _ hwalk => ?_)
  obtain ⟨hsteady, -, hwalk⟩ := hwalk
  have hgo : GoesTo k w w1 ⟨root, step :: rest, ty⟩ walk.1 walk.2 := by
    intro site R M place env entry distance u hsite hholds hM hentry hstruct hgoes hblank
    obtain ⟨R', hruns, hquiet, hholds', -, hvalue⟩ := hwalk (hk.laidIn hsite) hholds hentry hM hgoes hblank
    exact ⟨R', hruns, hquiet, hholds', hvalue⟩
  split
  · next ref hlin =>
    refine .bind ((copyStructure_stores hk hlin hsteady hgo).mono fun copy w' _ hstores => ?_)
    exact .pure ⟨walk.1 ++ copy, append_assoc .., hstores⟩
  rename_i hlin
  refine .pure ⟨walk.1 ++ [.store walk.2 value.argument], append_assoc .., .of_steady hsteady, ?_⟩
  intro site R M place env entry distance low new v' hsite hholds hM hentry hreplaced hty hgives hlow hblank
  obtain ⟨u, hgoes, -, -⟩ := hreplaced.goes
  have hstruct := hgoes.isStruct_of_cons
  obtain ⟨R1, hruns1, hquiet1, hholds1, haddr⟩ := hgo hsite hholds hM hentry hstruct hgoes hblank
  obtain ⟨hhas, hholds2, hspares⟩ := hholds1.replace hc hentry hstruct hreplaced
  have hscalar : new.isStruct = false := by
    rw [← Value.isLinear_ty, hty, TypeRef.isLinear, hlin]
    rfl
  obtain ⟨kind, hkind, -⟩ := hgives.fits.primitive hscalar
  have hvalue := hgives.operand hquiet1.le (hgives.ty.trans hkind)
  have hstore : site.Runs [.store walk.2 value.argument] R1 M R1 (M.patch (place root + distance) new.bytes) := by
    have harg : value.argument = ⟨kind.irType, value.argument.value⟩ := by
      rw [show kind.irType = value.argument.ty by rw [hgives.argument, hkind]; rfl]
    rw [harg]
    exact .store hM haddr hgives.fits hkind hvalue hhas
  exact ⟨R1, _, place, Memory.size_patch .., hruns1.append hstore, hquiet1.changes, hM.patch .., hholds2,
    fun b _ => hspares b⟩

/-! ### Declaring -/

/-- **Declaring a variable.** Its memory may have been taken long before. -/
theorem declareVariable_declares (c : Catalog) (numbers : Binary64 → Prop) (ty : TypeRef) (name : Identifier) :
    Attains (declareVariable ty name) w fun result w' =>
      ty.isVoid = false ∧ result = (w.scope.vars.length, [.set w.fresh (.alloc ty.storageType)]) ∧
      w'.fresh = w.fresh + 1 ∧ w.Proceeds numbers w' ∧
      ∀ {R M place env a x},
        w.scope.Holds c R M place env → x.Fits c → x.ty = ty → M.Holds a x →
        (∀ b, x.Covers a b → ¬ env.Owns place b) → R.get? w.fresh = some (.address a) →
          w'.scope.Holds c R M (Function.update place env.length a) ((name.symbol, x) :: env) := by
  refine (declareVariable_ensures ty name _).attains.mono fun result _ _ hres => ?_
  obtain ⟨-, hvoid, rfl, rfl⟩ := hres
  unfold Variable.declared
  refine ⟨hvoid, rfl, rfl, ⟨.push _ _, Nat.le_succ _, fun hw => hw.push ?_⟩, ?_⟩
  · split
    · exact ⟨fun _ hvalue => (by cases hvalue; trivial), nofun⟩
    · exact ⟨nofun, nofun⟩
  intro R M place env a x hholds hx hty hlies hapart hregister
  have haddr (ty : IR.Ty) : R.argument (.register ty w.fresh) = .ok (.address a) :=
    Registers.argument_register hregister
  split
  · next hlin =>
    refine hholds.push ⟨hty.symm, hx, hlies.has, fun _ => ⟨rfl, hlies, _, rfl, haddr _⟩, fun h => ?_, fun h => ?_,
      fun h => ?_, nofun⟩ hapart
    all_goals
      rw [hlin] at h
      cases h
  rename_i hlin
  exact hholds.push ⟨hty.symm, hx, hlies.has, fun h => absurd h hlin, fun _ => ⟨_, rfl, haddr _⟩,
    fun _ value hvalue => (by cases hvalue), fun _ _ => hlies, nofun⟩ hapart

/-! ### Statements -/

/-- A statement without branches, and code that does what it means. -/
structure Plays (k : Scene) (w w' : Workspace) (s : Statement) (code : Code) : Prop where
  proceeds : w.Proceeds k.numbers w'
  simulates : ∀ {site : Site} {rest : Code} {env : Env} {place : Nat → Nat} {R : Registers} {M : Memory},
    k.Hosts site → w.scope.Holds k.catalog R M place env → M.Proper → R.Blank w.fresh w'.fresh →
      site.Simulates (k.setting.evalStatement env s) code rest R M fun flow R' M' => ∃ env' place', flow = .next env' ∧
        Tidy env place w.fresh w'.fresh R M env' place' R' M' ∧ w'.scope.Holds k.catalog R' M' place' env'

theorem Scene.Sound.declared (hk : k.Sound) (hdir : ty.isDirect = true) {t : TypeRef}
    (ht : k.catalog.resolveValue [] ty = .ok t) (hvoid : t.isVoid = false) :
    k.setting.typeOf ty = pure t ∧
      ∃ v, blank k.catalog (k.catalog.structures.length + 1) t = some v ∧ v.ty = t ∧ v.Fits k.catalog ∧
      ∀ b ∈ v.bytes, b = 0 := by
  have husable := hk.laid.sound.resolveValue_usable hk.settled ht
  refine ⟨?_, exists_blank_of_usable hk.laid.sound hk.direct husable hvoid
    (Catalog.resolveValue_direct (by simp [Bindings.Direct]) hdir ht)⟩
  unfold Setting.typeOf
  rw [show k.setting.catalog = k.catalog from rfl, ht]
  rfl

theorem lowerDeclare_plays (hk : k.Sound) (hdir : ty.isDirect = true) (name : Identifier) (span : Span) :
    Attains (lowerDeclare k.ctx ty name) w fun code w' => Plays k w w' (.declare ty name span) code := by
  refine .bind (.check fun t ht => ?_)
  refine .bind ((declareVariable_declares k.catalog k.numbers t name).mono fun result w' _ hdecl => ?_)
  obtain ⟨hvoid, rfl, hfresh, hproceeds, hdecl⟩ := hdecl
  refine .pure ⟨hproceeds, ?_⟩
  intro site rest env place R M hsite hholds hM hblank
  obtain ⟨htype, v, hblankv, rfl, hv, hzero⟩ := hk.declared hdir ht hvoid
  have heval : k.setting.evalStatement env (.declare ty name span) = do
      k.setting.reserve v.ty
      return .next ((name.symbol, v) :: env) := by
    rw [Setting.evalStatement, htype, pure_bind, show k.setting.catalog = k.catalog from rfl, hblankv]
    rfl
  rw [heval]
  refine (Site.Simulates.room rfl (hk.laidIn hsite) hv hM w.fresh).bind_pure fun _ R' M' hroom => ?_
  obtain ⟨rfl, hentered, hM', hhas, hnew⟩ := hroom
  have hlast : w.fresh < w'.fresh := by simp_all
  have hle : R.Le (R.set w.fresh (.address M.size)) := .set (hblank _ le_rfl hlast) _
  refine .pure
    ⟨_, Function.update place env.length M.size, rfl, ⟨hentered.changes.mono le_rfl hlast, hle, hM', hentered.size,
    fun b hb howns => ⟨fun howns' => ?_, hentered.bytes b hb⟩⟩, ?_⟩
  · obtain howns' | hcovers := (Env.places_push _ _ _).owns howns'
    · exact howns howns'
    · exact Nat.not_lt.2 hcovers.1 hb
  · refine hdecl (hholds.mono hle hentered.size fun b hb => hentered.bytes b (hholds.lt_of_owns hb)) hv rfl
      (.of_zero hhas hzero fun b hb _ => hnew b hb) ?_ (Registers.get?_set_self ..)
    intro b hcovers howns
    exact Nat.not_lt.2 hcovers.1 (hholds.lt_of_owns howns)

/-- **A declaration with a value.** Memory is taken before the value is evaluated, with the variables from before; then
the variable is there, with nothing but zeros in it, and the value is stored. -/
theorem lowerDeclareAssign_plays (hk : k.Sound) (hw : w.scope.Admitted k.numbers) (hdir : ty.isDirect = true)
    (name : Identifier) {e : Expr} (he : ∀ l ∈ e.literals, l.Admitted k.numbers) (span : Span) :
    Attains (lowerDeclareAssign k.ctx ty name e span) w fun code w' =>
      Plays k w w' (.declareAssign ty name e span) code := by
  refine .bind ((lowerOperand_evaluates hk he none).mono fun value w1 _ hvalue => ?_)
  obtain ⟨hsteady, hvalue, -⟩ := hvalue
  refine .bind (.check fun t ht => ?_)
  split
  · exact .bind .reject
  rename_i hvaluety
  have hvaluety : value.ty = t := not_not.1 hvaluety
  refine .bind ((declareVariable_declares k.catalog k.numbers t name).mono fun result w2 _ hdecl => ?_)
  obtain ⟨hvoid, rfl, hfresh2, hproceeds2, hdecl⟩ := hdecl
  refine .bind ((storeAt_stores hk hvalue.epilog (hvalue.admitted hw)).mono fun code w' _ hstored => ?_)
  obtain ⟨tail, rfl, hproceeds', hstores⟩ := hstored
  refine .pure ⟨(Workspace.Proceeds.of_steady hsteady).trans (hproceeds2.trans hproceeds'), ?_⟩
  intro site rest env place R M hsite hholds hM hblank
  obtain ⟨htype, v, -, rfl, hv, hzero⟩ := hk.declared hdir ht hvoid
  have heval : k.setting.evalStatement env (.declareAssign ty name e span) = do
      k.setting.reserve v.ty
      let x ← k.setting.evalExpr env e
      return .next ((name.symbol, x) :: env) := by
    rw [Setting.evalStatement, htype, pure_bind]
  rw [heval]
  have hfirst : (w.fresh : Nat) ≤ w1.fresh := hsteady.fresh
  have hsecond : (w1.fresh : Nat) < w2.fresh := by simp_all
  have hthird : (w2.fresh : Nat) ≤ w'.fresh := hproceeds'.fresh
  -- memory for the variable
  refine (Site.Simulates.room rfl (hk.laidIn hsite) hv hM w1.fresh).bind fun _ R1 M1 hroom => ?_
  obtain ⟨rfl, hentered, hM1, hhas, hzeros⟩ := hroom
  have hchanges1 := hentered.changes.mono le_rfl hsecond
  have hle1 : R.Le (R.set w1.fresh (.address M.size)) :=
    .set (hblank _ hfirst (hsecond.trans_le hthird)) _
  have hholds1 := hholds.mono hle1 hentered.size fun b hb => hentered.bytes b (hholds.lt_of_owns hb)
  have hblank1 := (hblank.mono le_rfl (hsecond.le.trans hthird)).changes hchanges1 (.inl le_rfl)
  -- the value
  refine (hvalue.simulates hsite hholds1 hM1 hblank1).bind fun x R2 M2 hpost => ?_
  obtain ⟨hquiet2, hholds2, hgives⟩ := hpost
  have hxty : x.ty = v.ty := hgives.ty.symm.trans hvaluety
  -- the variable, before it has the value
  have hnew (b : Nat) (hb : v.Covers M.size b) : ¬ env.Owns place b := fun howns =>
    Nat.not_lt.2 hb.1 (hholds.lt_of_owns howns)
  have hlies1 : M1.Holds M.size v := .of_zero hhas hzero fun b hb _ => hzeros b hb
  have hlies2 : M2.Holds M.size v := hlies1.of_bytes hquiet2.size fun b hb =>
    hquiet2.spares b (hb.2.trans_le hhas.allocated) (hnew b hb)
  have hregister : R2.get? w1.fresh = some (.address M.size) := by
    rw [hquiet2.changes _ fun h => Nat.lt_irrefl _ h.2]
    exact Registers.get?_set_self ..
  have hholds2' := hdecl hholds2 hv rfl hlies2 hnew hregister
  have hgives' : value.Gives k.catalog ((name.symbol, v) :: env) M1.size R2 M2 x := by
    refine ⟨hgives.ty, hgives.fits, hgives.argument, hgives.value, fun id hid => ?_⟩
    obtain ⟨name, hname⟩ := hgives.owned id hid
    exact ⟨name, (Env.at?_cons_of_lt (Env.at?_lt hname)).trans hname⟩
  have hlow (b : Nat) (howns : Env.Owns ((name.symbol, v) :: env) (Function.update place env.length M.size) b) :
      b < M1.size := by
    obtain howns | hcovers := (Env.places_push _ _ _).owns howns
    · exact hholds1.lt_of_owns howns
    · exact hcovers.2.trans_le hhas.allocated
  have hblank2 : R2.Blank w2.fresh w'.fresh :=
    ((hblank.mono (hfirst.trans hsecond.le) le_rfl).changes hchanges1
      (.inr le_rfl)).changes hquiet2.changes (.inr hsecond.le)
  -- the value goes there
  have hroot : env.length = w1.scope.vars.length := hholds2.length
  obtain ⟨R3, M3, place', hsize3, hruns3, hchanges3, hM3, hholds3, hspares3⟩ := hstores hsite hholds2' hquiet2.proper
    (by rw [← hroot]; exact Env.at?_push ..) (hv.replaced hk.laid.sound hgives.fits hxty) hxty hgives' hlow
    hblank2
  have hput : Env.put ((name.symbol, v) :: env) w1.scope.vars.length x = (name.symbol, x) :: env := by
    rw [Env.put, if_pos hroot.symm]
  rw [hput] at hholds3 hspares3
  refine .of_runs hruns3 hsize3 ⟨_, place', rfl, ⟨?_, ?_, hM3, ?_, fun b hb howns => ?_⟩, hholds3⟩
  · refine (hchanges1.mono hfirst hthird).trans ((hquiet2.changes.mono le_rfl ?_).trans
      (hchanges3.mono ?_ le_rfl))
    · exact hsecond.le.trans hthird
    · exact hfirst.trans hsecond.le
  · exact hle1.trans (hquiet2.le.trans (hchanges3.le hblank2))
  · rw [hsize3]
    exact hentered.size.trans hquiet2.size
  have hb1 := hb.trans_le hentered.size
  obtain ⟨howns', hbyte⟩ := hspares3 b hb1 fun howns' => by
    obtain howns' | hcovers := (Env.places_push _ _ _).owns howns'
    · exact howns howns'
    · exact Nat.not_lt.2 hcovers.1 hb
  exact ⟨howns', hbyte.trans ((hquiet2.spares b hb1 howns).trans (hentered.bytes b hb))⟩

/-- **An assignment.** -/
theorem lowerAssign_plays (hk : k.Sound) (hw : w.scope.Admitted k.numbers) (target : Place) {e : Expr}
    (he : ∀ l ∈ e.literals, l.Admitted k.numbers) (span : Span) :
    Attains (lowerAssign k.ctx target e span) w
      fun code w' => Plays k w w' (.assign target e span) code := by
  refine .bind ((lowerOperand_evaluates hk he none).mono fun value w1 _ hvalue => ?_)
  obtain ⟨hsteady, hvalue, -⟩ := hvalue
  refine .bind (.get (.bind (.check fun l hl => ?_)))
  split
  · exact .bind .reject
  rename_i hvaluety
  have hvaluety : value.ty = l.ty := not_not.1 hvaluety
  refine (storeAt_stores hk hvalue.epilog (hvalue.admitted hw)).mono fun code w' _ hstored => ?_
  obtain ⟨tail, rfl, hproceeds', hstores⟩ := hstored
  refine ⟨(Workspace.Proceeds.of_steady hsteady).trans hproceeds', ?_⟩
  intro site rest env place R M hsite hholds hM hblank
  have hc := hk.laid.sound
  refine (hvalue.simulates hsite hholds hM (hblank.mono le_rfl hproceeds'.fresh)).bind fun x R1 M1 hpost => ?_
  obtain ⟨hquiet1, hholds1, hgives⟩ := hpost
  -- what is assigned to
  obtain ⟨v, hv, hfind, hfollow⟩ := Scope.locate_eq_ok hl
  obtain ⟨v', old, hv', -, hold, hvar, hget, hset⟩ := hholds1.find? hfind
  cases hv.symm.trans hv'
  rw [hvar.ty] at hfollow
  obtain ⟨distance, u, hreach⟩ := reaches_of_follow hc hvar.fits hfollow
  have hxty : x.ty = l.ty := hgives.ty.symm.trans hvaluety
  obtain ⟨new, hput, hreplaced⟩ := hreach.replaced hc hgives.fits hxty
  have hwrite : k.setting.write env target x = pure (env.put l.root new) := by
    rw [Setting.write, hget]
    show (Eval.ofOption (old.put? k.catalog target.accesses x) >>= fun v => _) = _
    rw [hput]
    show (pure (env.set target.name.symbol new) : Eval Env) = _
    rw [hset]
  rw [hwrite]
  have hblank1 := (hblank.mono hsteady.fresh le_rfl).changes hquiet1.changes (.inr le_rfl)
  obtain ⟨R2, M2, place', hsize2, hruns2, hchanges2, hM2, hholds2, hspares2⟩ :=
    hstores hsite hholds1 hquiet1.proper hold hreplaced hxty hgives (fun b howns => hholds.lt_of_owns howns) hblank1
  refine .of_runs hruns2 hsize2 ⟨_, place', rfl, ⟨?_, ?_, hM2, ?_, fun b hb howns => ?_⟩, hholds2⟩
  · exact (hquiet1.changes.mono le_rfl hproceeds'.fresh).trans (hchanges2.mono hsteady.fresh le_rfl)
  · exact hquiet1.le.trans (hchanges2.le hblank1)
  · rw [hsize2]
    exact hquiet1.size
  · obtain ⟨howns', hbyte⟩ := hspares2 b hb howns
    exact ⟨howns', hbyte.trans (hquiet1.spares b hb howns)⟩

/-- **A call for its effect.** -/
theorem lowerCallStatement_plays (hk : k.Sound) {call} (hcall : ∀ l ∈ call.literals, l.Admitted k.numbers) :
    Attains (lowerCallStatement k.ctx call) w fun code w' => Plays k w w' (.call call) code := by
  refine .bind ((lowerCall_makes hk call hcall).mono fun l w' _ hl => ?_)
  have hplays : Plays k w w' (.call call) (l.code ++ l.output.effect) := by
    refine ⟨.of_steady hl.steady, ?_⟩
    intro site rest env place R M hsite hholds hM hblank
    refine (hl.dropped hsite hholds hM hblank).bind_pure fun _ R' M' hpost => .pure ?_
    exact ⟨env, place, rfl, .of_quiet hpost.1, hpost.2⟩
  rw [hl.epilog]
  split
  · next ho =>
    rw [ho] at hplays
    exact .pure (by rwa [append_nil])
  rename_i hother
  have heffect : l.output.effect = [] := by
    simp [Output.effect]
  rw [heffect] at hplays
  exact .pure hplays

end Lowering
