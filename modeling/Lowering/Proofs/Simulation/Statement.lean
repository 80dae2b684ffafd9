import Lowering.Proofs.Simulation.Flow
/-!
# The code of a body does what the body means

The main results are `lowerStatement_acts` and, for a whole body, `lowerBody_acts`. A branch of a conditional is lowered
on a path of its own (`Branch.Follows`). Where it does not leave the function, it runs the code at its end, jumps to
where the branches meet and runs the phis there (`Branch.Follows.arm`); then its variables are gone, and the others
stand for their values.
-/

namespace Lowering

open List
open IR (Argument Code Local)
open Meaning

variable {k : Scene} {path path' path1 path2 : Path} {x : Env → Eval Flow} {M : Memory} {slot : Nat} {site : Site}
  {R : Registers} {rest closing after code : Code} {join : Local} {env : Env} {place : Nat → Nat} {positive : Branch}

/-! ### Leaving -/

theorem Meaning.Value.Fits.not_void {x : Value} (hx : x.Fits c) : x.ty.isVoid = false := by
  cases hstruct : x.isStruct with
  | true => exact TypeRef.isVoid_of_isLinear (by rw [Value.isLinear_ty, hstruct])
  | false =>
    obtain ⟨kind, hty, hkind⟩ := hx.primitive hstruct
    have hne : kind ≠ .void := fun h => hkind (by rw [h]; rfl)
    rw [hty]
    simpa [TypeRef.isVoid, TypeRef.primitive?, TypeRef.primitive] using hne

theorem Returned.of_value {x : Value} (hx : x.Fits c)
    (h : if x.isStruct then M.Holds slot x ∧ out = none else out = some x.scalar) :
    Returned c M slot x.ty (some x) out := by
  simp [Returned, hx.not_void, *]

theorem Site.exits_ret (h : value.mapM R.argument = .ok out) :
    Moment.Exits site.program (site.moment R M ([.ret value] ++ rest)) site.callers out M :=
  ⟨_, value, rest.untilLabel, .refl _, IR.Code.untilLabel_cons (i := .ret value) rfl rest, h⟩

/-- **A return**, with the result written to its slot or carried by the return itself. -/
theorem lowerReturn_acts (hk : k.Sound) (e : Option Expr) (span : Span)
    (he : ∀ l ∈ (Statement.ret e span).literals, l.Admitted k.numbers) :
    Attains (lowerReturn k.ctx e span) path fun code path' =>
      Acts k path path' (fun env => k.setting.evalStatement env (.ret e span)) code := by
  unfold lowerReturn
  cases e with
  | none =>
    dsimp only
    split
    · exact .bind .reject
    · next hvoid =>
      refine .bind (.modify (.pure ⟨⟨⟨.refl _, le_rfl, id⟩, .inl rfl⟩, ?_⟩))
      intro site rest env place R M slot hsite hp hcode hlabel hholds hM hblank hslot
      refine ⟨none, M, rfl, Site.exits_ret rfl, ⟨hM, le_rfl, fun _ _ _ _ => rfl⟩, ?_⟩
      grind [Returned]
  | some e =>
    dsimp only
    refine .bind (.ofWork ((lowerOperand_evaluates hk (by simpa only [Statement.literals] using he) none).mono
      fun r w1 _ hr => ?_))
    obtain ⟨hsteady, hr, -⟩ := hr
    rw [hr.epilog]
    split
    · next hepilog => cases hepilog
    split
    · exact .bind .reject
    rename_i hty
    have hty : r.ty = k.ctx.returnType := not_not.1 hty
    split
    · next argument ref harg hlin =>
      refine .bind (.ofWork ((copyStructure_simulates k.catalog ref argument r.argument).mono fun copy w _ hcopy => ?_))
      obtain ⟨hscope, hfresh, hcopy⟩ := hcopy
      have hfresh : (w1.fresh : Nat) ≤ w.fresh := by simp [hfresh]
      have hsteady' := hsteady.trans (.of_scope hscope hfresh)
      refine .bind (.pure (.bind (.modify (.pure ⟨⟨.of_steady hsteady', .inl rfl⟩, ?_⟩))))
      intro site rest env place R M slot hsite hp hcode hlabel hholds hM hblank hslot
      simp only [Setting.evalStatement, append_assoc]
      refine Scene.Enacts.bind (hr.simulates hsite hholds hM (hblank.mono le_rfl hfresh)) fun x R1 M1 hx => ?_
      obtain ⟨hquiet, hholds1, hgives⟩ := hx
      refine ⟨env, place, .of_quiet (hquiet.mono le_rfl hfresh), ?_⟩
      have hxty : x.ty = k.ctx.returnType := hgives.ty.symm.trans hty
      have hstruct : x.isStruct = true := by rw [← Value.isLinear_ty, hxty, TypeRef.isLinear, hlin]; rfl
      obtain ⟨⟨a, ha, haddr⟩, size, hsize, hhas⟩ :=
        hslot.mono hquiet.le hquiet.size (by rw [TypeRef.isLinear, hlin]; rfl)
      cases harg.symm.trans ha
      cases hsize.symm.trans (hxty ▸ hgives.fits.size hk.laid.sound)
      obtain ⟨source, hvalue, hlies⟩ := hgives.value
      rw [Value.handle_struct hstruct] at hvalue
      have hblank1 : R1.Blank w1.fresh w.fresh :=
        (hblank.mono hsteady.fresh le_rfl).changes hquiet.changes (.inr le_rfl)
      obtain ⟨R2, hchanges, hruns⟩ := hcopy (hk.laidIn hsite) hquiet.proper hgives.fits
        (hxty.trans (TypeRef.linear?_eq_some hlin)) hvalue (hlies hstruct).1 haddr hhas hblank1
      obtain ⟨hpatched, hothers⟩ := hhas.patch
      refine ⟨none, M1.patch slot x.bytes, Memory.size_patch ..,
        (hruns ([.ret none] ++ rest)).exits (Site.exits_ret rfl),
        ⟨hquiet.proper.patch .., by rw [Memory.size_patch], fun b _ _ hbelow => ?_⟩, ?_⟩
      · exact hothers b fun hcovers => Nat.not_lt.2 hcovers.1 (hbelow (by rw [TypeRef.isLinear, hlin]; rfl))
      · rw [← hxty]
        exact .of_value hgives.fits (by rw [hstruct]; exact ⟨hpatched, rfl⟩)
    rename_i hother
    refine .bind (.pure (.bind (.modify (.pure ⟨⟨.of_steady hsteady, .inl rfl⟩, ?_⟩))))
    intro site rest env place R M slot hsite hp hcode hlabel hholds hM hblank hslot
    simp only [Setting.evalStatement, append_assoc]
    refine Scene.Enacts.bind (hr.simulates hsite hholds hM hblank) fun x R1 M1 hx => ?_
    obtain ⟨hquiet, hholds1, hgives⟩ := hx
    refine ⟨env, place, .of_quiet hquiet, ?_⟩
    have hxty : x.ty = k.ctx.returnType := hgives.ty.symm.trans hty
    have hstruct : x.isStruct = false := by
      rw [← Value.isLinear_ty, hxty, Bool.eq_false_iff]
      intro hlin
      obtain ⟨⟨a, ha, -⟩, -⟩ := hslot hlin
      obtain ⟨ref, href⟩ := TypeRef.isLinear_iff.1 hlin
      exact hother a ref ha href
    obtain ⟨a, hvalue, -⟩ := hgives.value
    rw [Value.handle_scalar hstruct] at hvalue
    refine ⟨some x.scalar, M1, rfl, Site.exits_ret ?_, ⟨hquiet.proper, le_rfl, fun _ _ _ _ => rfl⟩, ?_⟩
    · rw [Option.mapM_some, hvalue]
      rfl
    · rw [← hxty]
      exact .of_value hgives.fits (by rw [hstruct]; rfl)

/-! ### Branches -/

/-- A path into a branch that starts at the next label. -/
def Path.inside (path : Path) : Path :=
  { path with fresh := path.fresh + 1, scope := path.scope.child, label := path.fresh, returned := false }

/-- A branch that was lowered from a path on, with code that does what a statement means. Its locals are below
`fresh`. -/
structure Branch.Follows (k : Scene) (path : Path) (fresh : Nat) (b : Branch) (x : Env → Eval Flow) : Prop where
  start : b.start = path.fresh
  acts : ∃ inner : Path, Acts k path.inside inner x b.code ∧ inner.label = b.last ∧ inner.returned = b.returned ∧
    inner.scope = b.scope ∧ inner.fresh = fresh

theorem branch_follows {body}
    (hbody : Attains body path.inside fun code inner => Acts k path.inside inner x code) :
    Attains (branch path.fresh body) { path with fresh := path.fresh + 1 } fun b path' =>
      path.Stays path' ∧ b.Follows k path path'.fresh x := by
  refine .bind (.get (.bind (.set (.bind (hbody.mono fun code inner _ hacts => ?_)))))
  refine .bind (.get (.bind (.set (.pure ?_))))
  have hfresh : (path.fresh : Nat) ≤ inner.fresh := Nat.le_of_succ_le hacts.advances.fresh
  exact ⟨⟨rfl, rfl, rfl, hfresh⟩, rfl, inner, hacts, rfl, rfl, rfl, rfl⟩

/-- What is known of the end of a branch. -/
structure Arrival.Follows (numbers : Binary64 → Prop) (path : Path) (fresh : Nat) (a : Arrival) : Prop where
  reaches : path.scope.Reaches a.scope
  admitted : path.scope.Admitted numbers → a.scope.Admitted numbers
  label : (path.fresh : Nat) ≤ a.label ∧ (a.label : Nat) < fresh

namespace Branch.Follows

variable {b : Branch} {fresh : Nat} {x : Env → Eval Flow}

theorem fresh_lt (h : b.Follows k path fresh x) : (path.fresh : Nat) < fresh := by
  obtain ⟨inner, hacts, -, -, -, rfl⟩ := h.acts
  exact hacts.advances.fresh

theorem arrival (h : b.Follows k path fresh x) : Arrival.Follows k.numbers path fresh ⟨b.last, b.scope⟩ := by
  obtain ⟨inner, hacts, hlast, -, hscope, rfl⟩ := h.acts
  rw [← hlast, ← hscope]
  refine ⟨fun id v hv => hacts.advances.continues.vars id v hv, fun ha => hacts.advances.admitted ha, ?_⟩
  have hfresh : path.fresh + 1 ≤ inner.fresh := hacts.advances.fresh
  obtain hlabel | hlabel := hacts.advances.label
  · rw [hlabel]
    exact ⟨Nat.le_refl path.fresh, hfresh⟩
  · exact ⟨Nat.le_of_succ_le hlabel.1, hlabel.2⟩

theorem arrivals (h : b.Follows k path fresh x) : ∀ a ∈ b.arrivals, a.Follows k.numbers path fresh := by
  intro a ha
  unfold Branch.arrivals at ha
  split at ha
  · cases ha
  · cases mem_singleton.1 ha
    exact h.arrival

end Branch.Follows

theorem Branch.arrivals_labels (b : Branch) : (b.arrivals.map Arrival.label).Nodup := by
  grind [Branch.arrivals]

/-- How a branch ends: it has left the function, or it runs some code for the place where branches meet and jumps
there. -/
def Branch.Closes (b : Branch) (join : Local) (P : Arrival → Code → Prop) (closing : Code) : Prop :=
  (b.returned = true ∧ closing = []) ∨
    (b.returned = false ∧ ∃ tail, closing = tail ++ [.jump join] ∧ P ⟨b.last, b.scope⟩ tail)

theorem Branch.Closes.mono {b : Branch} {P P'} (h : b.Closes join P closing) (hP : ∀ a tail, P a tail → P' a tail) :
    b.Closes join P' closing :=
  h.imp_right fun ⟨hgoes, tail, hclosing, htail⟩ => ⟨hgoes, tail, hclosing, hP _ _ htail⟩

theorem Branch.emit_closes {P} (b : Branch) (join : Local) {arrivals tails}
    (h : Forall₂ P (b.arrivals ++ arrivals) tails) :
    ∃ closing rest, b.emit join tails = (.label b.start :: (b.code ++ closing), rest) ∧ b.Closes join P closing ∧
      Forall₂ P arrivals rest := by
  unfold Branch.arrivals at h
  unfold Branch.emit
  cases hret : b.returned with
  | true =>
    simp only [hret, if_true, nil_append] at h
    exact ⟨[], tails, by simp, .inl ⟨hret, rfl⟩, h⟩
  | false =>
    simp only [hret, Bool.false_eq_true, if_false, singleton_append] at h
    obtain ⟨tail, rest, htail, hrest, rfl⟩ := forall₂_cons_left_iff.1 h
    exact ⟨tail ++ [.jump join], rest, by simp, .inr ⟨hret, tail, rfl, htail⟩, hrest⟩

theorem Meaning.Env.Owns.of_leave {inner} (hlen : env.length ≤ inner.length)
    (h : (env.leave inner).Owns place b) : inner.Owns place b := by
  obtain ⟨id, entry, hentry, hcovers⟩ := h
  have hid := Env.at?_lt hentry
  rw [Env.length_leave hlen] at hid
  rw [Env.at?_leave hlen hid] at hentry
  exact ⟨id, entry, hentry, hcovers⟩

/-- **A branch that is taken** does what it means, and then its variables are gone. -/
theorem Branch.Follows.arm {b : Branch} (h : b.Follows k path fresh x) {first last : Nat}
    (hfirst : first ≤ path.fresh) (hlast : fresh ≤ last) (hlen : path'.scope.vars.length = path.scope.vars.length)
    (hsite : k.Hosts site) (hp : site.frame.procedure.Orderly) (hlabel : site.frame.label = b.start)
    (hcode : site.frame.procedure.Contains (b.code ++ (closing ++ after)))
    (hclosing : b.Closes join (fun a tail => a.Rejoins k.catalog path'.scope tail phis ∧
      R.Unset (IR.definitions (tail ++ phis)) ∧ ∀ id ∈ IR.definitions (tail ++ phis), fresh ≤ id ∧ id < last) closing)
    (hjoin : b.returned = false → path'.returned = false ∧ path'.label = join ∧
      site.frame.procedure.Contains (.label join :: (phis ++ rest)))
    (hholds : path.scope.Holds k.catalog R M place env) (hM : M.Proper) (hblank : R.Blank path.fresh fresh)
    (hslot : k.Slot R M slot) :
    k.Enacts path' slot first last rest site (Flow.leave env <$> x env)
      (b.code ++ (closing ++ after)) env place R M := by
  obtain ⟨inner, hacts, hinner, hret, hscope, rfl⟩ := h.acts
  have henacts := hacts.enacts hsite hp hcode (hlabel.trans h.start) (hholds.congr rfl) hM
    (hblank.mono (Nat.le_succ _) le_rfl) hslot
  rw [Flow.leave_map]
  refine henacts.andThen (Nat.le_succ_of_le hfirst) hlast fun hgoes halike hlabel1 htidy hholds1 => ?_
  obtain ⟨hleft, -⟩ | ⟨hstays, tail, rfl, hrejoins, hunset, hids⟩ := hclosing
  · simp_all
  obtain ⟨hgoes', rfl, hmeet⟩ := hjoin hstays
  rename_i site1 env1 place1 R1 M1
  have henv : env.length ≤ env1.length := by
    rw [hholds.length, hholds1.length]
    exact hacts.advances.length
  have hunset1 : R1.Unset (IR.definitions (tail ++ phis)) := fun id hid => by
    rw [htidy.changes id fun hrange => Nat.not_lt.2 (hids id hid).1 hrange.2]
    exact hunset id hid
  obtain ⟨R2, R3, hruns, -, hphis, halters, hholds3⟩ :=
    hrejoins (hscope ▸ hholds1) htidy.proper (hholds.length.trans hlen.symm) henv hunset1
  -- The end of the branch, the jump, and the phis.
  have hend := hruns site1 ([.jump path'.label] ++ after)
  rw [← append_assoc] at hend
  have hjump : Moment.Steps site1.program (site1.moment R2 M1 ([.jump path'.label] ++ after)) _ :=
    Site.steps_jump (by rw [halike.procedure]; exact hp) (by rw [halike.procedure]; exact hmeet)
  have hmeets := hphis (site1.enter path'.label) (by rw [← hinner, ← hlabel1]; rfl) rest
  refine .next hgoes' ((hend.trans hjump).trans hmeets) (.enter site1 _) rfl rfl ?_ hholds3
  have hchanges := halters.changes fun id hid =>
    ⟨(Nat.le_trans hfirst h.fresh_lt.le).trans (hids id hid).1, (hids id hid).2⟩
  exact ⟨hchanges, halters.le hunset1, htidy.proper, le_rfl, fun _ _ howns =>
    ⟨fun howns' => howns (howns'.of_leave henv), rfl⟩⟩

/-! ### Where branches meet -/

/-- Code behind a condition that does what one of two statements means, inside a scope of its own. -/
structure Forks (k : Scene) (path path' : Path) (condition : Argument) (x y : Env → Eval Flow) (code : Code) :
    Prop where
  advances : path.Advances k.numbers path'
  enacts : ∀ {site : Site} {rest : Code} {env : Env} {place : Nat → Nat} {R : Registers} {M : Memory}
    {slot : Nat} {b : Bool},
    k.Hosts site → site.frame.procedure.Orderly → site.frame.procedure.Contains (code ++ rest) →
    site.frame.label = path.label → path.scope.Holds k.catalog R M place env → M.Proper →
    R.Blank path.fresh path'.fresh → k.Slot R M slot → R.argument condition = .ok (.ofBool b) →
      k.Enacts path' slot path.fresh path'.fresh rest site (Flow.leave env <$> if b then x env else y env)
        (code ++ rest) env place R M

theorem Site.steps_fork {condition b positive negative} (hp : site.frame.procedure.Orderly)
    (hcond : R.argument condition = .ok (.ofBool b)) {label} (hlabel : (if b then positive else negative) = label)
    (h : site.frame.procedure.Contains (.label label :: after)) :
    Moment.Steps site.program (site.moment R M ([.branch condition positive negative] ++ rest))
      ((site.enter label).moment R M after) := by
  subst hlabel
  exact Site.steps_branch hp hcond h

theorem Scene.Enacts.enter {first last label x} (hM : M.Proper)
    (hsteps : Moment.Steps site.program (site.moment R M code) ((site.enter label).moment R M after))
    (h : k.Enacts path slot first last rest (site.enter label) x after env place R M) :
    k.Enacts path slot first last rest site x code env place R M :=
  h.after hsteps (.enter site label) (.of_quiet (.refl _ _ _ _ R hM)) rfl

/-- **A conditional without a second branch.** What the path past it needs where the two meet is there before the branch
is taken. -/
theorem joinOne_forks (hk : k.Sound) (hadmitted : path1.scope.Admitted k.numbers)
    (hahead : (path1.label : Nat) < path1.fresh) (hgoes : path1.returned = false) (hstays : path1.Stays path)
    (hpositive : positive.Follows k path1 path.fresh x) (condition : Ready) :
    Attains (joinOne condition positive) path fun code path' => ∃ rest, code = condition.code ++ rest ∧
      Forks k path1 path' condition.argument x (fun env => pure (.next env)) rest := by
  have harrivals := hpositive.arrivals
  have hlabels : ((⟨path.label, path.scope⟩ :: positive.arrivals).map Arrival.label).Nodup := by
    rw [map_cons, nodup_cons]
    refine ⟨fun hmem => ?_, positive.arrivals_labels⟩
    obtain ⟨a, ha, hlabel⟩ := mem_map.1 hmem
    have hlast := (harrivals a ha).label.1
    rw [hlabel, hstays.label] at hlast
    exact Nat.not_lt.2 hlast hahead
  have hadmits : ∀ a ∈ (⟨path.label, path.scope⟩ :: positive.arrivals : List Arrival), a.scope.Admitted k.numbers :=
    forall_mem_cons.2 ⟨hstays.scope ▸ hadmitted, fun a ha => (harrivals a ha).admitted hadmitted⟩
  have hreach : ∀ a ∈ (⟨path.label, path.scope⟩ :: positive.arrivals : List Arrival), path.scope.Reaches a.scope :=
    forall_mem_cons.2 ⟨(Scope.Continues.refl path.scope).vars, fun a ha => hstays.scope ▸ (harrivals a ha).reaches⟩
  refine .bind (.ofWork (.fresh (.bind (.get (.bind (.ofWork ?_))))))
  refine (syncVariables_attains ..).mono fun synced w _ hmeeting => ?_
  obtain ⟨tail, tails, hpast, hrejoins, htails⟩ := forall₂_cons_left_iff.1
    (hmeeting.rejoins (c := k.catalog) hk.numbers hlabels hadmits hreach)
  have hlocs : ∀ t ∈ tail :: tails, ∀ id ∈ IR.definitions (t ++ synced.join), path.fresh + 1 ≤ id ∧ id < w.fresh :=
    fun t ht => hmeeting.locals (htails ▸ ht)
  have hapart : ∀ t ∈ tails, ∀ id ∈ IR.definitions (t ++ synced.join), id ∉ IR.definitions tail := by
    intro t ht id hid htail
    have hnodup := hmeeting.draws.2.1
    rw [htails, flatten_cons, append_assoc, IR.definitions_append, nodup_append] at hnodup
    refine hnodup.2.2 id htail id ?_ rfl
    rw [IR.definitions_append, mem_append] at hid ⊢
    exact hid.imp_left (IR.mem_definitions_flatten ht)
  have hmeets : Forall₂ (fun a t => a.Rejoins k.catalog w.scope t synced.join ∧ t ∈ tails)
      (positive.arrivals ++ []) tails := by
    rw [append_nil]
    exact forall₂_imp_of_mem hrejoins fun a _ t ht h => ⟨h, ht⟩
  obtain ⟨closing, left, hemit, hcloses, -⟩ := positive.emit_closes path.fresh hmeets
  rw [htails, tail_cons, hemit]
  refine .bind (.modify (.pure ⟨tail ++ ([.branch condition.argument positive.start path.fresh] ++
    (.label positive.start :: (positive.code ++ (closing ++ (.label path.fresh :: synced.join))))), by simp, ?_, ?_⟩))
  · exact ⟨⟨hstays.scope ▸ hmeeting.continues, hstays.fresh.trans (Nat.le_of_succ_le hmeeting.draws.1),
      fun ha => hmeeting.admitted hk.numbers hadmits (show path.scope.Admitted k.numbers from hstays.scope ▸ ha)⟩,
      .inr ⟨hstays.fresh, hmeeting.draws.1⟩⟩
  intro site rest env place R M slot b hsite hp hcode hlabel hholds hM hblank hslot hcond
  have hshape : tail ++ ([.branch condition.argument positive.start path.fresh] ++ (.label positive.start ::
      (positive.code ++ (closing ++ (.label path.fresh :: synced.join))))) ++ rest = tail ++
      ([.branch condition.argument positive.start path.fresh] ++ (.label positive.start :: (positive.code ++ (closing ++
      (.label path.fresh :: (synced.join ++ rest)))))) := by simp
  rw [hshape] at hcode ⊢
  have hstart := hcode.drop.drop
  have hbody : site.frame.procedure.Contains ([.label positive.start] ++ _) := hstart
  have hjoin := hbody.drop.drop.drop
  have hrange : ∀ t ∈ tail :: tails, ∀ id ∈ IR.definitions (t ++ synced.join), path1.fresh ≤ id ∧ id < w.fresh :=
    fun t ht id hid => ⟨hstays.fresh.trans (Nat.le_of_succ_le (hlocs t ht id hid).1), (hlocs t ht id hid).2⟩
  have htail := mem_cons_self (a := tail) (l := tails)
  obtain ⟨R1, R2, hruns, halters, hphis, halters2, hholds2⟩ := hpast (show path.scope.Holds _ R M place env from
    hstays.scope ▸ hholds) hM (hholds.length.trans (by rw [hmeeting.length, hstays.scope])) le_rfl
    (hblank.unset (hrange tail htail))
  have hsets : ∀ id ∈ IR.definitions tail, path.fresh + 1 ≤ id ∧ id < w.fresh := fun id hid =>
    hlocs tail htail id (by simp [*])
  have hchanges := halters.changes hsets
  have hle : R.Le R1 := halters.le fun id hid =>
    hblank.unset (hrange tail htail) id (by rw [IR.definitions_append]; exact mem_append_left _ hid)
  cases b with
  | true =>
    have hchanges1 := hchanges.mono (Nat.le_succ_of_le hstays.fresh) le_rfl
    refine Scene.Enacts.after ?_ (hruns site _) (.refl site) ⟨hchanges1, hle, hM, le_rfl, fun _ _ h => ⟨h, rfl⟩⟩ rfl
    refine .enter hM (Site.steps_fork hp (hle.argument hcond) rfl hstart) ?_
    refine hpositive.arm le_rfl (Nat.le_of_succ_le hmeeting.draws.1) (by rw [hmeeting.length, hstays.scope])
      ⟨hsite.program, hsite.callers⟩ hp rfl hbody.drop (hcloses.mono fun a t ht => ?_) (fun _ => ⟨?_, rfl, hjoin⟩)
      (hholds.mono hle le_rfl fun _ _ => rfl) hM ?_ (hslot.mono hle le_rfl)
    · have ht' := mem_cons_of_mem tail ht.2
      exact ⟨ht.1, halters.unset (hblank.unset (hrange t ht')) (hapart t ht.2), fun id hid =>
        ⟨Nat.le_of_succ_le (hlocs t ht' id hid).1, (hlocs t ht' id hid).2⟩⟩
    · exact hstays.returned.trans hgoes
    · exact (hblank.mono le_rfl (Nat.le_of_succ_le hmeeting.draws.1)).changes hchanges (.inl (Nat.le_succ _))
  | false =>
    have hmeet := hphis (site.enter path.fresh) (by rw [hstays.label, ← hlabel]; rfl) rest
    refine .next (hstays.returned.trans hgoes) ((hruns site _).trans ((Site.steps_fork hp (hle.argument hcond) rfl
      hjoin).trans hmeet)) (.enter site _) rfl rfl ?_ hholds2
    exact ⟨halters2.changes (hrange tail htail), halters2.le (hblank.unset (hrange tail htail)), hM, le_rfl,
      fun _ _ howns => ⟨fun howns' => howns (howns'.of_leave le_rfl), rfl⟩⟩

/-- Two branches that were brought together. -/
theorem Branch.Follows.forks {negative : Branch} (hpositive : positive.Follows k path1 path2.fresh x)
    (hnegative : negative.Follows k path2 path.fresh y) (hstays : path1.Stays path2)
    (hadvances : path1.Advances k.numbers path') (hlen : path'.scope.vars.length = path1.scope.vars.length)
    (hcloses : positive.Closes join (fun a tail => a.Rejoins k.catalog path'.scope tail phis ∧
      ∀ id ∈ IR.definitions (tail ++ phis), path.fresh ≤ id ∧ id < path'.fresh) closing)
    (hcloses' : negative.Closes join (fun a tail => a.Rejoins k.catalog path'.scope tail phis ∧
      ∀ id ∈ IR.definitions (tail ++ phis), path.fresh ≤ id ∧ id < path'.fresh) closing')
    (hfresh : (path.fresh : Nat) ≤ path'.fresh) (meeting : Code)
    (hmeeting : positive.returned = false ∨ negative.returned = false →
      path'.returned = false ∧ path'.label = join ∧ meeting = .label join :: phis)
    (condition : Argument) :
    Forks k path1 path' condition x y ([.branch condition positive.start negative.start] ++ (.label positive.start ::
      (positive.code ++ (closing ++ (.label negative.start :: (negative.code ++ (closing' ++ meeting))))))) where
  advances := hadvances
  enacts := by
    intro site rest env place R M slot b hsite hp hcode hlabel hholds hM hblank hslot hcond
    have hshape :
        [.branch condition positive.start negative.start] ++ (.label positive.start :: (positive.code ++ (closing ++
        (.label negative.start :: (negative.code ++ (closing' ++ meeting)))))) ++ rest =
        [.branch condition positive.start negative.start] ++ (.label positive.start :: (positive.code ++ (closing ++
        (.label negative.start :: (negative.code ++ (closing' ++ (meeting ++ rest))))))) := by simp
    rw [hshape] at hcode ⊢
    have hstart := hcode.drop
    have hbody : site.frame.procedure.Contains ([.label positive.start] ++ _) := hstart
    have hstart' := hbody.drop.drop.drop
    have hbody' : site.frame.procedure.Contains ([.label negative.start] ++ _) := hstart'
    have hmeet := hbody'.drop.drop.drop
    have hsecond := hnegative.fresh_lt
    have hjoin (hgoes : positive.returned = false ∨ negative.returned = false) : path'.returned = false ∧
        path'.label = join ∧ site.frame.procedure.Contains (.label join :: (phis ++ rest)) := by
      simp_all
    have hunset {tail : Code} (hids : ∀ id ∈ IR.definitions (tail ++ phis), path.fresh ≤ id ∧ id < path'.fresh) :
        R.Unset (IR.definitions (tail ++ phis)) := hblank.unset fun id hid =>
      ⟨(Nat.le_trans hstays.fresh hsecond.le).trans (hids id hid).1, (hids id hid).2⟩
    cases b with
    | true =>
      refine .enter hM (Site.steps_fork hp hcond rfl hstart) ?_
      exact hpositive.arm le_rfl (hsecond.le.trans hfresh) hlen
        ⟨hsite.program, hsite.callers⟩ hp rfl hbody.drop
        (hcloses.mono fun a t ht => ⟨ht.1, hunset ht.2, fun id hid =>
          ⟨hsecond.le.trans (ht.2 id hid).1, (ht.2 id hid).2⟩⟩)
        (fun hgoes => hjoin (.inl hgoes)) hholds hM
        (hblank.mono le_rfl (hsecond.le.trans hfresh)) hslot
    | false =>
      refine .enter hM (Site.steps_fork hp hcond rfl hstart') ?_
      exact hnegative.arm hstays.fresh hfresh (by rw [hlen, hstays.scope]) ⟨hsite.program, hsite.callers⟩ hp rfl
        hbody'.drop (hcloses'.mono fun a t ht => ⟨ht.1, hunset ht.2, ht.2⟩) (fun hgoes => hjoin (.inr hgoes))
        (hstays.scope ▸ hholds) hM (hblank.mono hstays.fresh hfresh) hslot

/-- **A conditional with two branches.** If both leave the function there is no place where they meet. -/
theorem joinTwo_forks (hk : k.Sound) (hadmitted : path1.scope.Admitted k.numbers) (hgoes : path1.returned = false)
    (hstays : path1.Stays path2) (hstays' : path2.Stays path) {negative : Branch} {y}
    (hpositive : positive.Follows k path1 path2.fresh x) (hnegative : negative.Follows k path2 path.fresh y)
    (condition : Ready) :
    Attains (joinTwo condition positive negative) path fun code path' => ∃ rest, code = condition.code ++ rest ∧
      Forks k path1 path' condition.argument x y rest := by
  have hscope : path2.scope = path1.scope := hstays.scope
  have hscope' : path.scope = path1.scope := hstays'.scope.trans hstays.scope
  have hlabels : ((positive.arrivals ++ negative.arrivals).map Arrival.label).Nodup := by
    rw [map_append, nodup_append]
    refine ⟨positive.arrivals_labels, negative.arrivals_labels, ?_⟩
    intro label hlabel label' hlabel' heq
    obtain ⟨a, ha, rfl⟩ := mem_map.1 hlabel
    obtain ⟨a', ha', rfl⟩ := mem_map.1 hlabel'
    have hlast := (hpositive.arrivals a ha).label.2
    rw [heq] at hlast
    exact Nat.not_lt.2 (hnegative.arrivals a' ha').label.1 hlast
  have hadmits : ∀ a ∈ positive.arrivals ++ negative.arrivals, a.scope.Admitted k.numbers :=
    forall_mem_append.2 ⟨fun a ha => (hpositive.arrivals a ha).admitted hadmitted, fun a ha =>
      (hnegative.arrivals a ha).admitted (hscope ▸ hadmitted)⟩
  have hreach : ∀ a ∈ positive.arrivals ++ negative.arrivals, path.scope.Reaches a.scope :=
    forall_mem_append.2 ⟨fun a ha => hscope' ▸ (hpositive.arrivals a ha).reaches, fun a ha =>
      hstays'.scope ▸ (hnegative.arrivals a ha).reaches⟩
  refine .bind (.ofWork (.fresh (.bind (.ofWork ?_))))
  refine (syncVariables_attains ..).mono fun synced w _ hmeeting => ?_
  have hmeets : Forall₂ (fun a t => a.Rejoins k.catalog w.scope t synced.join ∧
      ∀ id ∈ IR.definitions (t ++ synced.join), path.fresh ≤ id ∧ id < w.fresh)
      (positive.arrivals ++ negative.arrivals) synced.tails :=
    forall₂_imp_of_mem (hmeeting.rejoins hk.numbers hlabels hadmits hreach) fun a _ t ht h => ⟨h, fun id hid =>
      ⟨Nat.le_of_succ_le (hmeeting.locals ht id hid).1, (hmeeting.locals ht id hid).2⟩⟩
  obtain ⟨closing, tails, hemit, hcloses, hrest⟩ := positive.emit_closes path.fresh hmeets
  rw [← append_nil negative.arrivals] at hrest
  obtain ⟨closing', left, hemit', hcloses', -⟩ := negative.emit_closes path.fresh hrest
  have hfresh : path1.fresh ≤ path.fresh := hstays.fresh.trans hstays'.fresh
  have hfresh' : path.fresh < w.fresh := hmeeting.draws.1
  have hproceeds : path1.toWorkspace.Proceeds k.numbers w := ⟨hscope' ▸ hmeeting.continues, hfresh.trans hfresh'.le,
    fun ha => hmeeting.admitted hk.numbers hadmits (show path.scope.Admitted k.numbers from hscope' ▸ ha)⟩
  have hlen : w.scope.vars.length = path1.scope.vars.length := by rw [hmeeting.length, hscope']
  simp only [hemit, hemit']
  split
  · next hleft =>
    obtain ⟨hleft, hleft'⟩ := Bool.and_eq_true_iff.1 hleft
    have hadvances : path1.Advances k.numbers { path with toWorkspace := w, returned := true } :=
      ⟨hproceeds, .inl (hstays'.label.trans hstays.label)⟩
    refine .bind (.modify (.pure ⟨_, ?_, hpositive.forks hnegative hstays hadvances hlen hcloses
      hcloses' hfresh'.le [] ?_ condition.argument⟩))
    · simp
    · simp [hleft, hleft']
  · have hadvances : path1.Advances k.numbers { path with toWorkspace := w, label := path.fresh } :=
      ⟨hproceeds, .inr ⟨hfresh, hfresh'⟩⟩
    have hgoes' : path.returned = false := (hstays'.returned.trans hstays.returned).trans hgoes
    refine .bind (.modify (.pure ⟨_, ?_, hpositive.forks hnegative hstays hadvances hlen hcloses
      hcloses' hfresh'.le _ (fun _ => ⟨hgoes', rfl, rfl⟩) condition.argument⟩))
    simp

/-! ### Statements -/

/-- A conditional: its condition, and what comes of it. -/
theorem Forks.acts {condition : Ready} {e body otherwise span}
    (h : Forks k { path with toWorkspace := w } path' condition.argument (fun env => k.setting.evalBlock env body)
      (fun env => k.setting.evalOtherwise env otherwise) code)
    (hsteady : path.toWorkspace.Steady k.numbers w) (hcond : condition.Evaluates k path.toWorkspace w e)
    (hty : condition.ty = .primitive .bool) :
    Acts k path path' (fun env => k.setting.evalStatement env (.cond e body [] otherwise span))
      (condition.code ++ code) where
  advances := by
    have hfirst : path.Advances k.numbers { path with toWorkspace := w } := ⟨.of_steady hsteady, .inl rfl⟩
    exact hfirst.trans h.advances
  enacts := by
    intro site rest env place R M slot hsite hp hcode hlabel hholds hM hblank hslot
    rw [append_assoc] at hcode ⊢
    refine Scene.Enacts.bind (hcond.simulates hsite hholds hM (hblank.mono le_rfl h.advances.fresh))
      fun x R1 M1 hx => ⟨env, place, ?_⟩
    obtain ⟨hquiet, hholds1, hgives⟩ := hx
    refine ⟨.of_quiet (hquiet.mono le_rfl h.advances.fresh), ?_⟩
    obtain ⟨b, rfl⟩ := hgives.fits.of_bool (hgives.ty.symm.trans hty)
    obtain ⟨a, hvalue, -⟩ := hgives.value
    have henacts := h.enacts hsite hp hcode.drop hlabel hholds1 hquiet.proper
      ((hblank.mono hsteady.fresh le_rfl).changes hquiet.changes (.inr le_rfl))
      (hslot.mono hquiet.le hquiet.size) hvalue
    cases b <;> exact henacts.widen hsteady.fresh le_rfl

theorem Acts.append (h : Acts k path path1 x code)
    (hmore : Acts k path1 path' (fun env => k.setting.evalStatements env s) more) :
    Acts k path path' (fun env => x env >>= Flow.andThen fun env => k.setting.evalStatements env s) (code ++ more) where
  advances := h.advances.trans hmore.advances
  enacts := by
    intro site rest env place R M slot hsite hp hcode hlabel hholds hM hblank hslot
    rw [append_assoc] at hcode ⊢
    refine (h.enacts hsite hp hcode hlabel hholds hM (hblank.mono le_rfl hmore.advances.fresh) hslot).andThen
      le_rfl hmore.advances.fresh fun hgoes halike hlabel1 htidy hholds1 => ?_
    refine (hmore.enacts (halike.hosts hsite) (by rw [halike.procedure]; exact hp)
      (by rw [halike.procedure]; exact hcode.drop) hlabel1 hholds1 htidy.proper ?_
        (hslot.mono htidy.le htidy.size)).widen
      h.advances.fresh le_rfl
    exact (hblank.mono h.advances.fresh le_rfl).changes htidy.changes (.inr le_rfl)

theorem Acts.left (h : Acts k path path1 x code) (hleft : path1.returned = true) (hstays : path1.Stays path') :
    Acts k path path' (fun env => x env >>= Flow.andThen fun env => k.setting.evalStatements env s) code where
  advances := h.advances.trans (.of_stays hstays)
  enacts := by
    intro site rest env place R M slot hsite hp hcode hlabel hholds hM hblank hslot
    refine (h.enacts hsite hp hcode hlabel hholds hM (hblank.mono le_rfl hstays.fresh) hslot).andThen
      le_rfl hstays.fresh fun hgoes _ _ _ _ => ?_
    cases hleft.symm.trans hgoes

mutual

/-- **Statements.** -/
theorem lowerStatement_acts (hk : k.Sound) {path : Path} (hadmitted : path.scope.Admitted k.numbers)
    (hahead : (path.label : Nat) < path.fresh) (hgoes : path.returned = false) : ∀ s : Statement,
      (∀ l ∈ s.literals, l.Admitted k.numbers) → (∀ ty ∈ s.writtenTypes, ty.isDirect = true) →
        Attains (lowerStatement k.ctx s) path fun code path' =>
          Acts k path path' (fun env => k.setting.evalStatement env s) code
  | .declare ty name span, _, htypes =>
    .acts (lowerDeclare_plays hk (htypes ty (.head _)) name span) hgoes
  | .assign target e span, hlits, _ => .acts (lowerAssign_plays hk hadmitted target hlits span) hgoes
  | .declareAssign ty name e span, hlits, htypes =>
    .acts (lowerDeclareAssign_plays hk hadmitted (htypes ty (.head _)) name hlits span) hgoes
  | .ret e span, hlits, _ => lowerReturn_acts hk e span hlits
  | .call call, hlits, _ => .acts (lowerCallStatement_plays hk hlits) hgoes
  | .cond _ _ (clause :: _) _ _, _, _ => .reject
  | .cond e body [] otherwise span, hlits, htypes => by
    rw [Statement.literals, Clause.allLiterals, append_nil] at hlits
    rw [Statement.writtenTypes, Clause.allWrittenTypes, append_nil] at htypes
    obtain ⟨hlits, hotherwise⟩ := forall_mem_append.1 hlits
    obtain ⟨he, hbody⟩ := forall_mem_append.1 hlits
    obtain ⟨htypes, htypes'⟩ := forall_mem_append.1 htypes
    refine .bind (.ofWork ((lowerOperand_evaluates hk he (some (.primitive .bool))).mono fun r w _ hr => ?_))
    obtain ⟨hsteady, hr, hty⟩ := hr
    rw [hr.epilog]
    split
    · next hepilog => cases hepilog
    let path1 : Path := { path with toWorkspace := w }
    have hadmitted1 : path1.scope.Admitted k.numbers := hsteady.admitted hadmitted
    have hahead1 : (path1.label : Nat) < path1.fresh := hahead.trans_le hsteady.fresh
    have hgoes1 : path1.returned = false := hgoes
    refine .bind (.ofWork (.fresh (.bind ?_)))
    have hinside : path1.inside.scope.Admitted k.numbers := hadmitted1
    refine (branch_follows (lowerBlock_acts hk hinside (Nat.lt_succ_self _) rfl body hbody htypes)).mono
      fun positive path2 _ hpositive => ?_
    obtain ⟨hstays, hpositive⟩ := hpositive
    refine .bind ((lowerOtherwise_follows hk (hstays.scope ▸ hadmitted1) otherwise hotherwise htypes').mono
      fun negative path3 _ hnegative => ?_)
    cases negative with
    | some negative =>
      obtain ⟨hstays', hnegative⟩ := hnegative
      exact (joinTwo_forks hk hadmitted1 hgoes1 hstays hstays' hpositive hnegative r).mono fun code path4 _ hforks => by
        obtain ⟨rest, rfl, hforks⟩ := hforks
        exact hforks.acts hsteady hr (hty _ rfl)
    | none =>
      obtain ⟨rfl, hnone⟩ := hnegative
      exact (joinOne_forks hk hadmitted1 hahead1 hgoes1 hstays hpositive r).mono fun code path4 _ hforks => by
        obtain ⟨rest, rfl, hforks⟩ := hforks
        rw [← hnone] at hforks
        exact hforks.acts hsteady hr (hty _ rfl)

theorem lowerOtherwise_follows (hk : k.Sound) {path} (hadmitted : path.scope.Admitted k.numbers) :
    ∀ otherwise : Option Block, (∀ l ∈ Block.optionLiterals otherwise, l.Admitted k.numbers) →
      (∀ ty ∈ Block.optionWrittenTypes otherwise, ty.isDirect = true) →
        Attains (lowerOtherwise k.ctx otherwise) path fun negative path' =>
          match negative with
          | none => path' = path ∧ (fun env => k.setting.evalOtherwise env otherwise) = fun env => pure (.next env)
          | some b => path.Stays path' ∧ b.Follows k path path'.fresh fun env => k.setting.evalOtherwise env otherwise
  | none, _, _ => .pure ⟨rfl, funext fun env => by rw [Setting.evalOtherwise]⟩
  | some block, hlits, htypes => by
    refine .bind (.ofWork (.fresh (.map ?_)))
    have hinside : path.inside.scope.Admitted k.numbers := hadmitted
    exact branch_follows (lowerBlock_acts hk hinside (Nat.lt_succ_self _) rfl block hlits htypes)

theorem lowerBlock_acts (hk : k.Sound) {path} (hadmitted : path.scope.Admitted k.numbers)
    (hahead : (path.label : Nat) < path.fresh) (hgoes : path.returned = false) : ∀ block : Block,
      (∀ l ∈ block.literals, l.Admitted k.numbers) → (∀ ty ∈ block.writtenTypes, ty.isDirect = true) →
        Attains (lowerBlock k.ctx block) path fun code path' =>
          Acts k path path' (fun env => k.setting.evalBlock env block) code
  | ⟨statements, _⟩, hlits, htypes => lowerStatements_acts hk hadmitted hahead hgoes statements hlits htypes

theorem lowerStatements_acts (hk : k.Sound) {path} (hadmitted : path.scope.Admitted k.numbers)
    (hahead : (path.label : Nat) < path.fresh) (hgoes : path.returned = false) : ∀ statements : List Statement,
      (∀ l ∈ Statement.allLiterals statements, l.Admitted k.numbers) →
      (∀ ty ∈ Statement.allWrittenTypes statements, ty.isDirect = true) →
        Attains (lowerStatements k.ctx statements) path fun code path' =>
          Acts k path path' (fun env => k.setting.evalStatements env statements) code
  | [], _, _ => by
    refine .pure ⟨.of_stays ⟨rfl, rfl, rfl, le_rfl⟩, ?_⟩
    intro site rest env place R M slot hsite hp hcode hlabel hholds hM hblank hslot
    exact .next hgoes (.refl _) (.refl site) hlabel rfl (.of_quiet (.refl _ _ _ _ R hM)) hholds
  | s :: rest, hlits, htypes => by
    obtain ⟨hfirst, hrest⟩ := forall_mem_append.1 hlits
    obtain ⟨htypes, htypes'⟩ := forall_mem_append.1 htypes
    refine .bind (.get ?_)
    rw [hgoes]
    refine .bind ((lowerStatement_acts hk hadmitted hahead hgoes s hfirst htypes).mono fun code path1 _ hcode => ?_)
    cases hleft : path1.returned with
    | true =>
      refine .bind ((lowerStatements_left hleft rest).attains.mono fun more path2 _ hmore => .pure ?_)
      obtain ⟨rfl, hstays⟩ := hmore
      rw [append_nil]
      exact hcode.left hleft hstays
    | false =>
      exact .bind ((lowerStatements_acts hk (hcode.advances.admitted hadmitted) (hcode.advances.ahead hahead) hleft rest
        hrest htypes').mono fun more path2 _ hmore => .pure (hcode.append hmore))

end

/-- **The body of a function** leaves the function in the end. -/
theorem lowerBody_acts (hk : k.Sound) (hadmitted : path.scope.Admitted k.numbers)
    (hahead : (path.label : Nat) < path.fresh) (hgoes : path.returned = false)
    (hlits : ∀ l ∈ body.literals, l.Admitted k.numbers) (htypes : ∀ ty ∈ body.writtenTypes, ty.isDirect = true) :
    Attains (lowerBody k.ctx body) path fun code path' => path'.returned = true ∧
      Acts k path path' (fun env => k.setting.evalBlock env body) code := by
  refine .bind ((lowerBlock_acts hk hadmitted hahead hgoes body hlits htypes).mono fun code path' _ hcode => ?_)
  refine .bind (.get ?_)
  split
  · exact .bind .reject
  · next hleft => exact .pure ⟨by simpa using hleft, hcode⟩

end Lowering
