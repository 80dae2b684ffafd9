import Lowering.Proofs.Simulation.Writes
/-!
# Where branches meet, the variables stand for what they stood for on the branch that was taken

What a branch brings along (`Meeting.carries`) are the values that its variables hold (`Standing.holding`). Code at the
end of the branch and the phis where branches meet set registers that were not set before, and the variables of the
branch are gone behind it (`Meeting.rejoins`).
-/

namespace Lowering

open IR (Code Local)
open Meaning

/-! ### Registers -/

variable {first last : Nat} {v : Variable} {x : Value}

namespace Registers

variable {ids more : List Local} {R R' R'' : Registers}

/-- No register of a list is set. -/
def Unset (ids : List Local) (R : Registers) : Prop := ∀ id ∈ ids, R.get? id = none

theorem Alters.le (h : Alters ids R R') (hunset : R.Unset ids) : R.Le R' := fun id v hv => by
  rw [h id fun hid => (by rw [hunset id hid] at hv; cases hv), hv]

theorem Alters.unset (h : Alters ids R R') (hunset : R.Unset more) (hapart : ∀ id ∈ more, id ∉ ids) : R'.Unset more :=
  fun id hid => by rw [h id (hapart id hid), hunset id hid]

theorem Blank.unset (h : R.Blank first last) (hids : ∀ id ∈ ids, first ≤ id ∧ id < last) : R.Unset ids :=
  fun id hid => h id (hids id hid).1 (hids id hid).2

theorem Alters.changes (h : Alters ids R R') (hids : ∀ id ∈ ids, first ≤ id ∧ id < last) :
    Changes first last R R' := fun id hid => h id fun hmem => hid (hids id hmem)

end Registers

/-! ### Variables that were brought together -/

variable {c : Catalog} {numbers : Binary64 → Prop} {R R' : Registers} {M : Memory} {place : Nat → Nat} {env : Env}

theorem Variable.Holds.known (h : v.Holds c R M a x) (hvalue : R.operand v.ty.irType value = .ok (x.handle a))
    (dirty : Bool) : Variable.Holds c R M { v with cache := some value, dirty } a x := by
  have hlin : v.ty.isLinear = x.isStruct := by rw [h.ty, Value.isLinear_ty]
  cases hx : x.isStruct with
  | true =>
    rw [Value.handle_struct hx] at hvalue
    have hlinear := hlin.trans hx
    obtain ⟨hstor, hholds, -⟩ := h.linear hlinear
    have hnot {P : Prop} (hnormal : v.ty.isLinear = false) : P := by cases hlinear.symm.trans hnormal
    exact ⟨h.ty, h.fits, h.has, fun _ => ⟨hstor, hholds, value, rfl, hvalue⟩, hnot, hnot, hnot, fun _ => ⟨value, rfl⟩⟩
  | false =>
    rw [Value.handle_scalar hx] at hvalue
    exact h.with_cache (hlin.trans hx) h.fits h.ty hvalue rfl dirty

/-- Variables hold the values of an environment, each at its place. -/
def Standing.holding (c : Catalog) (hM : M.Proper) (place : Nat → Nat) (env : Env) : Standing (fun _ => True) M where
  stands id R v := ∃ x, env.at? id = some (v.name, x) ∧ v.Holds c R M (place id) x
  handle id := ((env.at? id).map fun entry => entry.2.handle (place id)).getD (.int 0)
  congr h hR := by
    obtain ⟨x, hx, hvar⟩ := h
    exact ⟨x, hx, hvar.congr hR le_rfl fun _ _ => rfl⟩
  known h _ ho := by
    obtain ⟨x, hx, hvar⟩ := h
    rw [hx] at ho
    exact ⟨x, hx, hvar.known ho _⟩
  unknown h _ := by
    obtain ⟨x, hx, hvar⟩ := h
    exact ⟨x, hx, hvar.ty, hvar.fits, hvar.has, hvar.linear, hvar.stored, hvar.cached, hvar.kept, fun h => by cases h⟩
  supplies := by
    rintro id R v first load o last ⟨x, hx, hvar⟩ h
    rw [hx]
    cases h with
    | known hcache => exact ⟨R, fun _ _ => .nil, .refl _ _, hvar.handle hcache⟩
    | loaded hcache hstor =>
      have hlin := hvar.not_linear hcache
      obtain ⟨hscalar, kind, hkind, hxkind⟩ := hvar.primitive hlin
      obtain ⟨address', hstor', haddr⟩ := hvar.stored hlin
      cases hstor.symm.trans hstor'
      refine ⟨R.set first x.scalar, fun site _ => ?_, .set R _ _, ?_⟩
      · rw [hkind]
        exact .load hM haddr hvar.fits hxkind (hvar.kept hlin hcache)
      · rw [Option.map_some, Value.handle_scalar hscalar]
        exact Registers.argument_set_self ..

namespace Meeting

variable {arrivals : List Arrival} {w0 w : Workspace} {n : Nat} {synced : Synced}

section Admitted

variable (hnums : ∀ x y, numbers x → numbers y → x.equal y = true → x = y)
  (hadmitted : ∀ a ∈ arrivals, a.scope.Admitted numbers)
include hnums hadmitted

theorem admitted (h : Meeting arrivals w0 n synced w) (hw0 : w0.scope.Admitted numbers) : w.scope.Admitted numbers := by
  induction h with
  | start => exact hw0
  | agreed h hown hstates hagree ih =>
    have hstates := states_admitted hadmitted hstates
    refine ih.put _ ⟨fun value hvalue => ?_, fun hdirty => ?_⟩
    · obtain ⟨v, hv, hcache⟩ := Option.bind_eq_some_iff.1 hvalue
      exact (hstates v (List.mem_of_head? hv)).value value hcache
    obtain ⟨v, hv, hdirty⟩ := List.any_eq_true.1 hdirty
    obtain ⟨value, hvalue⟩ := (hstates v hv).dirty hdirty
    exact ⟨value, (cache_of_agree hnums hstates hagree hv).1.trans hvalue⟩
  | contested _ _ _ _ _ ih => exact ih.put _ ⟨fun _ hvalue => (by cases hvalue; trivial), fun _ => ⟨_, rfl⟩⟩

end Admitted

end Meeting

/-- What the end of a branch and the place where branches meet come to, if the branch was taken: the variables of the
branch are gone, and the others stand for what they did. -/
def Arrival.Rejoins (c : Catalog) (a : Arrival) (s : Scope) (tail join : Code) : Prop :=
  ∀ {R : Registers} {M : Memory} {place : Nat → Nat} {env inner : Env}, a.scope.Holds c R M place inner → M.Proper →
    env.length = s.vars.length → env.length ≤ inner.length → R.Unset (IR.definitions (tail ++ join)) →
      ∃ R' R'', (∀ site : Site, site.Runs tail R M R' M) ∧ Registers.Alters (IR.definitions tail) R R' ∧
        (∀ site : Site, site.frame.previous = some a.label → site.Runs join R' M R'' M) ∧
        Registers.Alters (IR.definitions (tail ++ join)) R R'' ∧ s.Holds c R'' M place (env.leave inner)

/-- **Branches that were brought together.** -/
theorem Meeting.rejoins
    (h : Meeting arrivals w0 w0.scope.vars.length synced w)
    (hnums : ∀ x y, numbers x → numbers y → x.equal y = true → x = y) (hlabels : (arrivals.map Arrival.label).Nodup)
    (hadmitted : ∀ a ∈ arrivals, a.scope.Admitted numbers) (hreach : ∀ a ∈ arrivals, w0.scope.Reaches a.scope) :
    List.Forall₂ (fun a tail => a.Rejoins c w.scope tail synced.join) arrivals synced.tails := by
  refine forall₂_imp_of_mem (h.carries hnums hadmitted hlabels hreach) fun a _ tail _ hcarries => ?_
  intro R M place env inner hholds hM hlen hinner hunset
  obtain ⟨R', hruns, halters, hjoin⟩ := hcarries (.holding c hM place inner) hholds.vars fun r ⟨v, hv, hr⟩ hid => by
    obtain ⟨id, hget⟩ := List.mem_iff_getElem?.1 hv
    obtain ⟨x, -, hvar⟩ := hholds.vars id v hget
    obtain ⟨u, hu⟩ := hvar.exists_get? hr
    cases (hunset r hid).symm.trans hu
  obtain ⟨R'', hruns', halters', hvars⟩ := hjoin R' fun _ _ => rfl
  refine ⟨R', R'', fun site => hruns site trivial, halters, fun site => hruns' site trivial, ?_, ?_, ?_, ?_⟩
  · rw [IR.definitions_append]
    exact halters.append halters'
  · rw [Env.length_leave hinner, hlen]
  · intro id v hv
    have hid : id < w.scope.vars.length := (List.getElem?_eq_some_iff.1 hv).1
    obtain ⟨⟨x, hx, hvar⟩, -⟩ := hvars id v (h.length ▸ hid) hv
    exact ⟨x, by rw [Env.at?_leave hinner (hlen ▸ hid), hx], hvar⟩
  intro id other entry entry' hne hentry hentry'
  have hid := Env.at?_lt hentry
  have hother := Env.at?_lt hentry'
  rw [Env.length_leave hinner] at hid hother
  rw [Env.at?_leave hinner hid] at hentry
  rw [Env.at?_leave hinner hother] at hentry'
  exact hholds.apart id other entry entry' hne hentry hentry'

end Lowering
