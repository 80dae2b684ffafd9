import Lowering.Proofs.Body.Join
import Lowering.Tree.WrittenTypes
/-!
# Statements are lowered to structured code

A statement begins on a path that is at a point, and ends on one that is at another or has left the function
(`Path.At`). The code in between is `IR.Laid`: conditionals are the only thing that opens blocks, and where their
branches meet the variables have been brought together. A branch is lowered on a path of its own, so what is known of it
is kept with it (`Branch.Runs`) until both are there.
-/

namespace Lowering

open IR (Code Laid Point Station Setting Typing)

/-- Where a path is: behind a return, or at a point where its variables are in good order and at least `Γ` is known. -/
def Path.At (c : Catalog) (Γ : Typing) (path : Path) : Option Point → Prop
  | none => path.returned = true
  | some q => path.returned = false ∧ q.label = path.label ∧ path.Sound c q.known ∧ Γ ⊆ q.known

/-- How the results of a body leave its procedure: a linear one is written to a slot, any other one is returned. -/
structure Context.Leaves (ctx : Context) (Γ : Typing) (returnType : IR.Ty) : Prop where
  linear : ∀ ref, ctx.returnType.linear? = some ref →
    returnType = .void ∧ ∃ slot, ctx.returnSlot = some slot ∧ slot.Fits Γ ∧ slot.ty = ctx.returnType.irType
  direct : ctx.returnType.linear? = none → returnType = ctx.returnType.irType

theorem Context.Leaves.mono {ctx : Context} {Γ Δ returnType} (h : ctx.Leaves Γ returnType) (hsub : Γ ⊆ Δ) :
    ctx.Leaves Δ returnType where
  linear ref href := by
    obtain ⟨hvoid, slot, hslot, hfits, htype⟩ := h.linear ref href
    exact ⟨hvoid, slot, hslot, hfits.mono hsub, htype⟩
  direct := h.direct

/-- What a statement does to the path it is lowered on. -/
structure Lays (env : Setting) (returnType : IR.Ty) (c : Catalog) (Γ : Typing) (path : Path) (code : Code)
    (path' : Path) : Prop where
  laid : ∃ exit stations, Laid env returnType ⟨path.label, Γ⟩ code exit stations ∧ path'.At c Γ exit
  continues : path.scope.Continues path'.scope
  draws : Draws path.fresh path'.fresh (IR.definitions code)

variable {env : Setting} {returnType : IR.Ty} {c : Catalog} {Γ : Typing} {path path' path'' : Path} {ctx : Context}
  {code more : Code} {stations : List Station} {s : Scope} {fresh : Nat} {b : Branch} {exit : Option Point}
  {points : List Point}

theorem Performs.lays (h : Performs env c Γ path.toWorkspace code w) (hpath : path.returned = false) :
    Lays env returnType c Γ path code { path with toWorkspace := w } where
  laid := ⟨_, [], .straight _ h.straight, hpath, rfl, h.sound, Typing.subset_past ..⟩
  continues := h.continues
  draws := h.draws

theorem Secures.lays {x : Work Code} (h : Secures x path.toWorkspace (Performs env c Γ path.toWorkspace))
    (hpath : path.returned = false) : Secures (Build.ofWork x) path (Lays env returnType c Γ path) :=
  .ofWork (h.mono fun _ _ _ hcode => hcode.lays hpath)

theorem Lays.append {q} (h : Laid env returnType ⟨path.label, Γ⟩ code (some q) stations) (hat : path'.At c Γ (some q))
    (hcontinues : path.scope.Continues path'.scope) (hdraws : Draws path.fresh path'.fresh (IR.definitions code))
    (hmore : Lays env returnType c q.known path' more path'') : Lays env returnType c Γ path (code ++ more) path'' where
  laid := by
    obtain ⟨-, hlabel, -, hsub⟩ := hat
    obtain ⟨exit, others, hlaid, hexit⟩ := hmore.laid
    rw [← hlabel] at hlaid
    refine ⟨exit, _, h.seq hlaid, ?_⟩
    cases exit with
    | none => exact hexit
    | some => exact ⟨hexit.1, hexit.2.1, hexit.2.2.1, List.Subset.trans hsub hexit.2.2.2⟩
  continues := hcontinues.trans hmore.continues
  draws := by
    rw [IR.definitions_append]
    exact hdraws.append hmore.draws

/-! ### Leaving -/

/-- Returning, with the result written to its slot or carried by the return itself. -/
theorem lowerReturn_lays (hctx : ctx.Sound env) (hleaves : ctx.Leaves Γ returnType)
    (h : path.Sound ctx.catalog Γ) (e : Option Expr) (span : Span) :
    Secures (lowerReturn ctx e span) path (Lays env returnType ctx.catalog Γ path) := by
  unfold lowerReturn
  cases e with
  | none =>
    dsimp only
    split
    · exact .bind .reject
    rename_i hvoid
    have hvoid : ctx.returnType = .primitive .void :=
      Catalog.primitive?_eq_some (by simpa [TypeRef.isVoid] using hvoid)
    refine .bind (.modify (.pure ⟨⟨none, [], .ret _ ?_, rfl⟩, .refl _, .nil le_rfl⟩))
    rw [hleaves.direct (by rw [hvoid]; rfl), hvoid]
    rfl
  | some e =>
    dsimp only
    refine .bind (.ofWork ((lowerOperand_emits hctx h e none).mono fun value w _ hvalue => ?_))
    obtain ⟨hexpr, hsound, -⟩ := hvalue
    rw [hsound.epilog]
    split
    · next hepilog => cases hepilog
    split
    · exact .bind .reject
    rename_i hty
    have hty : value.ty = ctx.returnType := not_not.1 hty
    have hstart : Laid env returnType ⟨path.label, Γ⟩ value.code _ [] := .straight _ hexpr.straight
    split
    · next slot ref hslot hlin =>
      obtain ⟨hvoid, slot', hslot', hfits, htype⟩ := hleaves.linear ref hlin
      cases hslot.symm.trans hslot'
      have hptr := TypeRef.irType_of_linear? hlin
      have hsrc : value.argument.ty = ref.irType.pointerTo := by rw [hsound.type, hty, hptr]
      refine .bind (.ofWork ((copyStructure_supplies hctx w (hctx.linear hctx.result hlin).1
        (hfits.mono (Typing.subset_past ..)) (htype.trans hptr) hsound.fits hsrc).mono fun copy _ _ hcopy => ?_))
      refine .bind (.pure (.bind (.modify (.pure ⟨?_, ?_, ?_⟩))))
      · exact ⟨none, _, hstart.seq (.seq (.straight _ hcopy.straight) (.ret _ hvoid)), rfl⟩
      · exact hexpr.performs.continues.trans (hcopy.scope ▸ .refl _)
      · simpa using hexpr.draws.append hcopy.draws
    rename_i hother
    have hlin : ctx.returnType.linear? = none := by
      rcases hlin : ctx.returnType.linear? with _ | ref
      · rfl
      obtain ⟨-, slot, hslot, -, -⟩ := hleaves.linear ref hlin
      exact absurd hlin (hother slot ref hslot)
    refine .bind (.pure (.bind (.modify (.pure ⟨?_, ?_, ?_⟩))))
    · refine ⟨none, _, hstart.seq (.ret _ ⟨hsound.fits, ?_⟩), rfl⟩
      rw [hsound.type, hty, hleaves.direct hlin]
    · exact hexpr.performs.continues
    · simpa using hexpr.draws

/-! ### Branches -/

/-- A branch that starts where `Γ` is known, on a path with the variables of `s`. Every register of it is below
`fresh`. -/
structure Branch.Runs (env : Setting) (returnType : IR.Ty) (c : Catalog) (Γ : Typing) (s : Scope) (fresh : Nat)
    (b : Branch) (exit : Option Point) (stations : List Station) : Prop where
  laid : Laid env returnType ⟨b.start, Γ⟩ b.code exit stations
  returned : b.returned = exit.isNone
  arrives : List.Forall₂ (Arrival.At c) b.arrivals exit.toList
  reaches : s.Reaches b.scope
  known : ∀ q ∈ exit.toList, Γ ⊆ q.known ∧ ∀ x ∈ q.known, x.1 < fresh

theorem Branch.Runs.arrivals_reach (h : b.Runs env returnType c Γ s fresh exit stations) :
    ∀ a ∈ b.arrivals, s.Reaches a.scope := by
  intro a ha
  unfold Branch.arrivals at ha
  split at ha
  · cases ha
  · cases List.mem_singleton.1 ha
    exact h.reaches

theorem Branch.Runs.mono {fresh'} (h : b.Runs env returnType c Γ s fresh exit stations) (hle : fresh ≤ fresh') :
    b.Runs env returnType c Γ s fresh' exit stations :=
  ⟨h.laid, h.returned, h.arrives, h.reaches, fun q hq =>
    ⟨(h.known q hq).1, fun x hx => ((h.known q hq).2 x hx).trans_le hle⟩⟩

def Branch.locals (b : Branch) : List IR.Local := b.start :: IR.definitions b.code

/-- A path that is where it was, with a supply that may be further ahead. -/
structure Path.Stays (path path' : Path) : Prop where
  scope : path'.scope = path.scope
  label : path'.label = path.label
  returned : path'.returned = path.returned
  fresh : (path.fresh : Nat) ≤ path'.fresh

theorem Path.Stays.sound (hstays : path.Stays path') (h : path.Sound c Γ) : path'.Sound c Γ :=
  ⟨fun v hv => h.vars v (hstays.scope ▸ hv), fun x hx => (h.ahead x hx).trans_le hstays.fresh⟩

theorem Path.Stays.trans (h : path.Stays path') (h' : path'.Stays path'') : path.Stays path'' :=
  ⟨h'.scope.trans h.scope, h'.label.trans h.label, h'.returned.trans h.returned, h.fresh.trans h'.fresh⟩

theorem branch_runs (path : Path) (h : path.Sound c Γ) {body}
    (hbody : ∀ inner : Path, inner.Sound c Γ → inner.returned = false →
      Secures body inner (Lays env returnType c Γ inner)) :
    Secures (branch path.fresh body) { path with fresh := path.fresh + 1 } fun b path' =>
      path.Stays path' ∧ Draws path.fresh path'.fresh b.locals ∧
        ∃ exit stations, b.Runs env returnType c Γ path.scope path'.fresh exit stations := by
  refine .bind (.get (.bind (.set (.bind ?_))))
  refine (hbody _ ?_ rfl).mono fun code inner _ hcode => ?_
  · exact ⟨h.vars, fun x hx => Nat.lt_succ_of_lt (h.ahead x hx)⟩
  refine .bind (.get (.bind (.set (.pure ?_))))
  have hdraws := (Draws.one path.fresh).append hcode.draws
  obtain ⟨exit, stations, hlaid, hexit⟩ := hcode.laid
  refine ⟨⟨rfl, rfl, rfl, hdraws.1⟩, hdraws, exit, stations, hlaid, ?_, ?_, ?_, ?_⟩
  · cases exit with
    | none => exact hexit
    | some => exact hexit.1
  · cases exit with
    | none =>
      have hret : inner.returned = true := hexit
      simp only [Branch.arrivals, hret, if_true]
      exact .nil
    | some q =>
      simp only [Branch.arrivals, hexit.1, Bool.false_eq_true, if_false]
      exact .cons ⟨hexit.2.1.symm, hexit.2.2.1.vars⟩ .nil
  · exact fun id v hv => hcode.continues.vars id v hv
  rcases exit with _ | q
  · simp
  intro r hr
  cases List.mem_singleton.1 hr
  exact ⟨hexit.2.2.2, hexit.2.2.1.ahead⟩

theorem Branch.Runs.emit (h : b.Runs env returnType c Γ s fresh exit stations)
    (htails : List.Forall₂ (fun p tail => IR.Straight env p.known tail) (exit.toList ++ points) tails)
    (join : IR.Local) : ∃ body exit' rest, b.emit join tails = (.label b.start :: body ++ IR.closing join exit', rest) ∧
      Laid env returnType ⟨b.start, Γ⟩ body exit' stations ∧
        List.Forall₂ (fun p tail => IR.Straight env p.known tail) points rest ∧
          IR.behind (exit.toList ++ points) tails = exit'.toList ++ IR.behind points rest ∧
            (IR.definitions (body ++ rest.flatten)).Perm (IR.definitions (b.code ++ tails.flatten)) := by
  have hret := h.returned
  rcases exit with _ | q
  · refine ⟨b.code, none, tails, ?_, h.laid, htails, rfl, .refl _⟩
    simp [Branch.emit, hret, IR.closing]
  cases htails with
  | @cons _ tail _ rest htail hrest =>
    refine ⟨b.code ++ tail, some ⟨q.label, q.known.past tail⟩, rest, ?_, ?_, hrest, rfl, ?_⟩
    · simp [Branch.emit, hret, IR.closing]
    · have := h.laid.seq (.straight _ htail)
      rwa [List.append_nil] at this
    · simp

theorem Syncs.meets (h : Syncs env c points w synced w') (hne : points ≠ []) (join : IR.Local) :
    IR.Meets (IR.behind points synced.tails) join (.label join :: synced.join)
      (some ⟨join, (IR.common points).past synced.join⟩)
      [⟨join, IR.common points, IR.behind points synced.tails⟩] := by
  refine .somewhere _ _ ?_ (fun a ha x hx => ?_) h.good.join
  · have hlen := h.good.tails.length_eq
    simp only [IR.behind, ne_eq, List.zipWith_eq_nil_iff, not_or]
    grind
  obtain ⟨n, hn, rfl⟩ := List.mem_iff_getElem.1 ha
  simp only [IR.behind, List.getElem_zipWith]
  exact Typing.subset_past _ _ ((IR.mem_common hne).1 hx _ (List.getElem_mem _))

theorem IR.subset_common (hne : points ≠ []) (h : ∀ p ∈ points, Γ ⊆ p.known) :
    Γ ⊆ IR.common points :=
  fun _ hx => (IR.mem_common hne).2 fun p hp => h p hp hx

/-- What joining a conditional does to the path of its condition: the code behind the condition is structured, and
defines the locals of the branches and those that are drawn for it. -/
structure Joins (env : Setting) (returnType : IR.Ty) (c : Catalog) (Γ : Typing) (path : Path) (condition : Code)
    (branches : List IR.Local) (code : Code) (path' : Path) : Prop where
  laid : ∃ rest exit stations, code = condition ++ rest ∧ Laid env returnType ⟨path.label, Γ⟩ rest exit stations ∧
    path'.At c Γ exit ∧ ∃ ids, (IR.definitions rest).Perm (branches ++ ids) ∧ Draws path.fresh path'.fresh ids
  continues : path.scope.Continues path'.scope

/-- **Joining a conditional with one branch.** The path that does not take it arrives from before the branch. -/
theorem joinOne_lays (h : path.Sound c Γ) (hpath : path.returned = false) {condition}
    (hcond : IR.ConditionTyped Γ condition.argument) {positive}
    (hpositive : positive.Runs env returnType c Γ path.scope path.fresh exit stations) :
    Secures (joinOne condition positive) path (Joins env returnType c Γ path condition.code positive.locals) := by
  refine .bind (.ofWork (.fresh (.bind (.get (.bind ?_)))))
  set points : List Point := ⟨path.label, Γ⟩ :: exit.toList with hpoints
  have hne : points ≠ [] := List.cons_ne_nil _ _
  have hsub : Γ ⊆ IR.common points := by
    refine IR.subset_common hne fun p hp => ?_
    obtain rfl | hp := List.mem_cons.1 hp
    · exact List.Subset.refl _
    · exact (hpositive.known p hp).1
  have hsound : Workspace.Sound c (IR.common points) { path.toWorkspace with fresh := path.fresh + 1 } :=
    ⟨fun v hv => (h.vars v hv).mono hsub,
      fun x hx => Nat.lt_succ_of_lt (h.ahead x ((IR.mem_common hne).1 hx _ (.head _)))⟩
  have hat : List.Forall₂ (Arrival.At c) (⟨path.label, path.scope⟩ :: positive.arrivals) points :=
    .cons ⟨rfl, h.vars⟩ hpositive.arrives
  have hreach : ∀ a ∈ (⟨path.label, path.scope⟩ :: positive.arrivals : List Arrival), path.scope.Reaches a.scope := by
    intro a ha
    obtain rfl | ha := List.mem_cons.1 ha
    · exact fun id v hv => ⟨v, hv, rfl, rfl, rfl⟩
    · exact hpositive.arrivals_reach a ha
  refine .ofWork ((syncVariables_syncs env hat hne hsound hreach).mono fun synced w _ hsynced => ?_)
  have hmeets := hsynced.meets hne path.fresh
  have htails := hsynced.good.tails
  obtain ⟨tails, join⟩ := synced
  rw [hpoints] at htails
  cases htails with
  | @cons _ tail _ tails htail htails =>
    rw [← List.append_nil exit.toList] at htails
    obtain ⟨body, exit', rest, hemit, hbody, hrest, hbehind, hperm⟩ := hpositive.emit htails path.fresh
    cases hrest
    have hbehind' : IR.behind points (tail :: tails) = ⟨path.label, Γ.past tail⟩ :: exit'.toList := by
      rw [List.append_nil, show IR.behind [] [] = [] from rfl, List.append_nil] at hbehind
      exact congrArg (List.cons _) hbehind
    rw [hbehind'] at hmeets
    have hone : Laid env returnType ⟨path.label, Γ.past tail⟩ _ _ _ :=
      .one ⟨hcond.1.mono (Typing.subset_past ..), hcond.2⟩ (Typing.subset_past ..) hbody hmeets
    rw [List.tail_cons, hemit]
    refine .bind (.modify (.pure ⟨⟨tail ++ _, _, _, ?_, .seq (.straight _ htail) hone, ?_, ?_⟩, hsynced.continues⟩))
    · simp
    · exact ⟨hpath, rfl, hsynced.sound, List.Subset.trans hsub (Typing.subset_past ..)⟩
    · refine ⟨path.fresh :: IR.definitions ((tail :: tails).flatten ++ join), ?_, (Draws.one _).append hsynced.draws⟩
      grind [Branch.locals, IR.definitions_append, IR.definitions_branch, IR.definitions_label, IR.definitions_closing]

/-- **Joining a conditional with two branches.** If both leave the function there is no place where they meet. -/
theorem joinTwo_lays (h : path.Sound c Γ) (hpath : path.returned = false) {condition}
    (hcond : IR.ConditionTyped Γ condition.argument) {positive negative exit' stations'}
    (hpositive : positive.Runs env returnType c Γ path.scope path.fresh exit stations)
    (hnegative : negative.Runs env returnType c Γ path.scope path.fresh exit' stations') :
    Secures (joinTwo condition positive negative) path (Joins env returnType c Γ path condition.code
      (positive.locals ++ negative.locals)) := by
  refine .bind (.ofWork (.fresh (.bind ?_)))
  have hat : List.Forall₂ (Arrival.At c) (positive.arrivals ++ negative.arrivals) (exit.toList ++ exit'.toList) :=
    List.rel_append hpositive.arrives hnegative.arrives
  have hknown : ∀ p ∈ exit.toList ++ exit'.toList, Γ ⊆ p.known ∧ ∀ x ∈ p.known, x.1 < path.fresh := by
    intro p hp
    obtain hp | hp := List.mem_append.1 hp
    · exact hpositive.known p hp
    · exact hnegative.known p hp
  have hreach : ∀ a ∈ positive.arrivals ++ negative.arrivals, path.scope.Reaches a.scope := by
    intro a ha
    obtain ha | ha := List.mem_append.1 ha
    · exact hpositive.arrivals_reach a ha
    · exact hnegative.arrivals_reach a ha
  by_cases hne : exit.toList ++ exit'.toList = []
  · obtain ⟨rfl, rfl⟩ : exit = none ∧ exit' = none := by simpa using hne
    have hleft : positive.returned = true := hpositive.returned
    have hleft' : negative.returned = true := hnegative.returned
    simp only [Branch.arrivals, Branch.emit, hleft, hleft', if_true, List.append_nil, Bool.and_true]
    have hmeets : IR.Meets [] path.fresh [] none [] := .nowhere rfl
    have htwo : Laid env returnType ⟨path.label, Γ⟩ _ _ _ := .two hcond (List.Subset.refl _) (List.Subset.refl _)
      hpositive.laid hnegative.laid hmeets
    refine .ofWork (.pure (.bind (.modify (.pure ⟨⟨_, _, _, ?_, htwo, rfl, [], ?_, .nil (Nat.le_succ _)⟩, .refl _⟩))))
    · simp [IR.closing]
    · simp [Branch.locals]
  have hsub := IR.subset_common hne fun p hp => (hknown p hp).1
  obtain ⟨p, hp⟩ := List.exists_mem_of_ne_nil _ hne
  have hsound : Workspace.Sound c (IR.common (exit.toList ++ exit'.toList))
      { path.toWorkspace with fresh := path.fresh + 1 } :=
    ⟨fun v hv => (h.vars v hv).mono hsub,
      fun x hx => Nat.lt_succ_of_lt ((hknown p hp).2 x ((IR.mem_common hne).1 hx p hp))⟩
  refine .ofWork ((syncVariables_syncs env hat hne hsound hreach).mono fun synced w _ hsynced => ?_)
  have hmeets := hsynced.meets hne path.fresh
  obtain ⟨body, out, tails, hemit, hbody, htails, hbehind, hperm⟩ :=
    hpositive.emit hsynced.good.tails path.fresh
  rw [← List.append_nil exit'.toList] at htails
  obtain ⟨body', out', rest, hemit', hbody', hrest, hbehind', hperm'⟩ := hnegative.emit htails path.fresh
  cases hrest
  rw [List.append_nil, show IR.behind [] [] = [] from rfl, List.append_nil] at hbehind'
  rw [hbehind, hbehind'] at hmeets
  have htwo : Laid env returnType ⟨path.label, Γ⟩ _ _ _ := .two hcond (List.Subset.refl _) (List.Subset.refl _)
    hbody hbody' hmeets
  have hgoes : (positive.returned && negative.returned) = false := by
    grind [hpositive.returned, hnegative.returned]
  simp only [hemit, hemit', hgoes, Bool.false_eq_true, if_false]
  refine .bind (.modify (.pure ⟨⟨_, _, _, ?_, htwo, ?_, ?_⟩, hsynced.continues⟩))
  · simp
  · exact ⟨hpath, rfl, hsynced.sound, List.Subset.trans hsub (Typing.subset_past ..)⟩
  refine ⟨path.fresh :: IR.definitions (synced.tails.flatten ++ synced.join), ?_, (Draws.one _).append hsynced.draws⟩
  have hcount := List.perm_iff_count.1 hperm
  have hcount' := List.perm_iff_count.1 hperm'
  refine List.perm_iff_count.2 fun x => ?_
  have hcount := hcount x
  have hcount' := hcount' x
  simp only [Branch.locals, IR.definitions_append, IR.definitions_branch, IR.definitions_label, List.flatten_nil,
    List.append_nil, List.count_append, List.count_cons, IR.definitions_closing, List.cons_append] at hcount hcount' ⊢
  omega

/-- A conditional: its condition, its branches and their joining. -/
theorem Joins.lays {start joined condition branches}
    (h : Joins env returnType c (Γ.past condition) path condition branches code joined)
    (hcond : Performs env c Γ start.toWorkspace condition w)
    (hstays : Path.Stays { start with toWorkspace := w } path) (hbranches : Draws w.fresh path.fresh branches) :
    Lays env returnType c Γ start code joined := by
  obtain ⟨rest, exit, stations, rfl, hlaid, hexit, ids, hperm, hids⟩ := h.laid
  rw [hstays.label] at hlaid
  refine ⟨⟨exit, _, .seq (.straight _ hcond.straight) hlaid, ?_⟩, ?_, ?_⟩
  · cases exit with
    | none => exact hexit
    | some => exact ⟨hexit.1, hexit.2.1, hexit.2.2.1, List.Subset.trans (Typing.subset_past ..) hexit.2.2.2⟩
  · exact hcond.continues.trans (hstays.scope ▸ h.continues)
  · rw [IR.definitions_append]
    exact hcond.draws.append ((hbranches.append hids).perm hperm.symm)

theorem lowerStatements_left (hpath : path.returned = true) (statements : List Statement) :
    Secures (lowerStatements ctx statements) path fun code path' => code = [] ∧ path.Stays path' := by
  rcases statements with _ | ⟨s, rest⟩
  · exact .pure ⟨rfl, rfl, rfl, rfl, le_rfl⟩
  refine .bind (.get ?_)
  rw [hpath]
  exact .bind (.report (.pure ⟨rfl, rfl, rfl, rfl, le_rfl⟩))

mutual

/-- **Statements.** Lowering one breaks no promise and emits structured, well-typed code. -/
theorem lowerStatement_lays (hctx : ctx.Sound env) {Γ} {path : Path} (hleaves : ctx.Leaves Γ returnType)
    (h : path.Sound ctx.catalog Γ) (hpath : path.returned = false) : ∀ s : Statement,
      (∀ ty ∈ s.writtenTypes, ctx.catalog.Allots env ty) →
        Secures (lowerStatement ctx s) path (Lays env returnType ctx.catalog Γ path)
  | .declare ty name span, hallots =>
    .lays (lowerDeclare_performs hctx h (hallots ty (.head _)) name) hpath
  | .assign target value span, _ => .lays (lowerAssign_performs hctx h target value span) hpath
  | .declareAssign ty name value span, hallots =>
    .lays (lowerDeclareAssign_performs hctx h (hallots ty (.head _)) name value span) hpath
  | .ret value span, _ => lowerReturn_lays hctx hleaves h value span
  | .call call, _ => .lays (lowerCallStatement_performs hctx h call) hpath
  | .cond _ _ (clause :: _) _ _, _ => .reject
  | .cond condition body [] otherwise span, hallots => by
    rw [Statement.writtenTypes, Clause.allWrittenTypes, List.append_nil] at hallots
    obtain ⟨hbody, hotherwise⟩ := List.forall_mem_append.1 hallots
    refine .bind (.ofWork
      ((lowerOperand_emits hctx h condition (some (.primitive .bool))).mono fun value w _ hvalue => ?_))
    obtain ⟨hexpr, hsound, hty⟩ := hvalue
    rw [hsound.epilog]
    split
    · next hepilog => cases hepilog
    have hcond : IR.ConditionTyped (Γ.past value.code) value.argument :=
      ⟨hsound.fits, by rw [hsound.type, hty _ rfl]; rfl⟩
    have hleaves' := hleaves.mono (Typing.subset_past Γ value.code)
    refine .bind (.ofWork (.fresh (.bind ?_)))
    refine (branch_runs { path with toWorkspace := w } hexpr.sound fun inner hinner hgoes =>
      lowerBlock_lays hctx hleaves' hinner hgoes body hbody).mono fun positive path2 _ hpositive => ?_
    obtain ⟨hstays, hdraws, exit, stations, hruns⟩ := hpositive
    refine .bind ((lowerOtherwise_runs hctx hleaves' (hstays.sound hexpr.sound)
      otherwise hotherwise).mono fun negative path3 _ hnegative => ?_)
    obtain ⟨hstays', hnegative⟩ := hnegative
    have hstays3 := hstays.trans hstays'
    have hsound3 := hstays3.sound hexpr.sound
    have hpath3 := hstays3.returned.trans hpath
    replace hruns := hruns.mono hstays'.fresh
    rw [← hstays3.scope] at hruns
    cases negative with
    | some negative =>
      obtain ⟨hdraws', exit', stations', hruns'⟩ := hnegative
      rw [← hstays'.scope] at hruns'
      exact (joinTwo_lays hsound3 hpath3 hcond hruns hruns').mono fun code path4 _ hjoins =>
        hjoins.lays hexpr.performs hstays3 (hdraws.append hdraws')
    | none =>
      exact (joinOne_lays hsound3 hpath3 hcond hruns).mono fun code path4 _ hjoins =>
        hjoins.lays hexpr.performs hstays3 (by simpa using hdraws.append (.nil hstays'.fresh))

theorem lowerOtherwise_runs (hctx : ctx.Sound env) {Γ path} (hleaves : ctx.Leaves Γ returnType)
    (h : path.Sound ctx.catalog Γ) : ∀ otherwise : Option Block,
      (∀ ty ∈ Block.optionWrittenTypes otherwise, ctx.catalog.Allots env ty) →
        Secures (lowerOtherwise ctx otherwise) path fun negative path' => path.Stays path' ∧
          match negative with
          | none => True
          | some b => Draws path.fresh path'.fresh b.locals ∧
            ∃ exit stations, b.Runs env returnType ctx.catalog Γ path.scope path'.fresh exit stations
  | none, _ => .pure ⟨⟨rfl, rfl, rfl, le_rfl⟩, trivial⟩
  | some block, hallots => by
    refine .bind (.ofWork (.fresh (.map ?_)))
    exact (branch_runs path h fun inner hinner hgoes => lowerBlock_lays hctx hleaves hinner hgoes block
      hallots).mono
      fun b path' _ hb => hb

theorem lowerBlock_lays (hctx : ctx.Sound env) {Γ path} (hleaves : ctx.Leaves Γ returnType)
    (h : path.Sound ctx.catalog Γ) (hpath : path.returned = false) : ∀ block : Block,
      (∀ ty ∈ block.writtenTypes, ctx.catalog.Allots env ty) →
        Secures (lowerBlock ctx block) path (Lays env returnType ctx.catalog Γ path)
  | ⟨statements, _⟩, hallots => lowerStatements_lays hctx hleaves h hpath statements hallots

theorem lowerStatements_lays (hctx : ctx.Sound env) {Γ} {path : Path} (hleaves : ctx.Leaves Γ returnType)
    (h : path.Sound ctx.catalog Γ) (hpath : path.returned = false) : ∀ statements : List Statement,
      (∀ ty ∈ Statement.allWrittenTypes statements, ctx.catalog.Allots env ty) →
        Secures (lowerStatements ctx statements) path (Lays env returnType ctx.catalog Γ path)
  | [], _ => .pure ((Emits.nil h).performs.lays hpath)
  | s :: rest, hallots => by
    obtain ⟨hfirst, hrest⟩ := List.forall_mem_append.1 hallots
    refine .bind (.get ?_)
    rw [hpath]
    refine .bind ((lowerStatement_lays hctx hleaves h hpath s hfirst).mono fun code path' _ hcode => ?_)
    obtain ⟨exit, stations, hlaid, hexit⟩ := hcode.laid
    rcases exit with _ | q
    · -- Control has left the function, so nothing is lowered behind the statement.
      refine .bind ((lowerStatements_left hexit rest).mono fun more path'' _ hmore => .pure ?_)
      obtain ⟨rfl, hstays⟩ := hmore
      rw [List.append_nil]
      exact ⟨⟨none, stations, hlaid, hstays.returned.trans hexit⟩, hstays.scope ▸ hcode.continues,
        by simpa using hcode.draws.append (.nil hstays.fresh)⟩
    obtain ⟨hgoes, hlabel, hsound, hsub⟩ := hexit
    exact .bind ((lowerStatements_lays hctx (hleaves.mono hsub) hsound hgoes rest hrest).mono
      fun more path'' _ hmore => .pure (.append hlaid ⟨hgoes, hlabel, hsound, hsub⟩ hcode.continues hcode.draws hmore))

end

/-- **The body of a function** leaves the function on every path. -/
theorem lowerBody_laid (path : Path) (hctx : ctx.Sound env) (hleaves : ctx.Leaves Γ returnType)
    (h : path.Sound ctx.catalog Γ) (hpath : path.returned = false) (body : Block)
    (hallots : ∀ ty ∈ body.writtenTypes, ctx.catalog.Allots env ty) :
    Secures (lowerBody ctx body) path fun code path' =>
      (∃ stations, Laid env returnType ⟨path.label, Γ⟩ code none stations) ∧
        Draws path.fresh path'.fresh (IR.definitions code) := by
  refine .bind ((lowerBlock_lays hctx hleaves h hpath body hallots).mono fun code path' _ hcode => ?_)
  refine .bind (.get ?_)
  obtain ⟨exit, stations, hlaid, hexit⟩ := hcode.laid
  rcases exit with _ | q
  · have hret : path'.returned = true := hexit
    simp only [hret, Bool.not_true, Bool.false_eq_true, if_false]
    exact .pure ⟨⟨stations, hlaid⟩, hcode.draws⟩
  simp only [hexit.1, Bool.not_false, if_true]
  exact .bind .reject

end Lowering
