import Lowering.Proofs.Unit.Compile
/-!
# Without an error, nothing is left out

A function is left out of the module for an error only. Errors are not lost on the way: a problem that is not reported
is one that was reported before. So if no error was reported, then every function was compiled, and the procedures of
the module are those of the functions, in order.
-/

namespace Lowering

open List

/-! ### Reporting -/

namespace Reporter

/-- What is remembered was reported as an error. -/
def Honest (r : Reporter) : Prop := r.remembered ≠ [] → r.hasErrors = true

theorem honest_empty : Honest {} := fun h => absurd rfl h

theorem hasErrors_emit (r : Reporter) (d : Diagnostic) : (r.emit d).hasErrors = (r.hasErrors || d.isError) := by
  simp [hasErrors, emit]

variable {r : Reporter} {d : Diagnostic}

theorem remembered_of_knows (h : r.knows d = true) : r.remembered ≠ [] := by
  intro hnil
  rw [knows, hnil] at h
  cases h

/-- Reporting an error leaves an error behind, and no report takes one away. -/
theorem hasErrors_throw (hr : r.Honest) (h : r.hasErrors = true ∨ d.isError = true) : (r.throw d).hasErrors = true := by
  unfold throw
  split
  · next hknows => exact hr (remembered_of_knows hknows)
  · rw [hasErrors_emit, Bool.or_eq_true]
    exact h

theorem Honest.throw (hr : r.Honest) (d : Diagnostic) : (r.throw d).Honest := by
  intro hremembered
  refine hasErrors_throw hr (.inl (hr ?_))
  unfold Reporter.throw at hremembered
  split at hremembered <;> exact hremembered

theorem hasErrors_remember (hr : r.Honest) (h : r.hasErrors = true ∨ d.isError = true) :
    (r.remember d).hasErrors = true := by
  unfold remember
  split
  · next hknows => exact hr (remembered_of_knows hknows)
  show (r.emit d).hasErrors = true
  rw [hasErrors_emit, Bool.or_eq_true]
  exact h

theorem Honest.remember (hr : r.Honest) (hd : d.isError = true) :
    (r.remember d).Honest :=
  fun _ => hasErrors_remember hr (.inr hd)

/-- `r` with `ds` reported as well. -/
def extend (r : Reporter) (ds : List Diagnostic) : Reporter := { r with collected := r.collected ++ ds }

theorem extend_nil (r : Reporter) : r.extend [] = r := by
  simp [extend]

theorem extend_extend (r : Reporter) (ds ds' : List Diagnostic) : (r.extend ds).extend ds' = r.extend (ds ++ ds') := by
  simp [extend]

theorem knows_congr {r' : Reporter} (h : r.remembered = r'.remembered) : r.knows = r'.knows := by
  funext d
  rw [knows, h, knows]

theorem knows_extend (r : Reporter) (ds : List Diagnostic) : (r.extend ds).knows = r.knows := rfl

theorem throw_eq (r : Reporter) (d : Diagnostic) : r.throw d = r.extend ([d].filter fun d => !r.knows d) := by
  unfold throw
  split
  · next hknows => simp [hknows, extend_nil]
  · next hnew =>
    rw [filter_cons_of_pos (by simpa using hnew)]
    rfl

/-- Of many problems those are reported that are not remembered. -/
theorem throwAll_eq (r : Reporter) (ds : List Diagnostic) :
    r.throwAll ds = r.extend (ds.filter fun d => !r.knows d) := by
  induction ds generalizing r with
  | nil => exact r.extend_nil.symm
  | cons d ds ih =>
    have hthrown : r.throwAll (d :: ds) = (r.throw d).throwAll ds := rfl
    rw [hthrown, ih, r.throw_eq, extend_extend, knows_extend, ← filter_append]
    rfl

/-- Reports lead from one reporter to another: what is remembered stays reported, and errors stay. -/
def Leads (r r' : Reporter) : Prop := r.Honest → r'.Honest ∧ (r'.hasErrors = false → r.hasErrors = false)

theorem Leads.refl (r : Reporter) : r.Leads r := fun hr => ⟨hr, id⟩

theorem Leads.trans (h : r.Leads r') (h' : r'.Leads r'') : r.Leads r'' := by
  intro hr
  obtain ⟨hr', hquiet⟩ := h hr
  obtain ⟨hr'', hquiet'⟩ := h' hr'
  exact ⟨hr'', fun hnone => hquiet (hquiet' hnone)⟩

theorem leads_throw (r : Reporter) (d : Diagnostic) : r.Leads (r.throw d) := by
  refine fun hr => ⟨hr.throw d, fun hnone => Bool.eq_false_iff.2 fun herrs => ?_⟩
  cases hnone.symm.trans (hasErrors_throw hr (.inl herrs))

theorem leads_remember (r : Reporter) (hd : d.isError = true) : r.Leads (r.remember d) := by
  refine fun hr => ⟨hr.remember hd, fun hnone => ?_⟩
  cases hnone.symm.trans (hasErrors_remember hr (.inr hd))

theorem leads_throwAll (r : Reporter) (ds : List Diagnostic) : r.Leads (r.throwAll ds) := by
  induction ds generalizing r with
  | nil => exact .refl r
  | cons d ds ih => exact (r.leads_throw d).trans (ih _)

/-- Where no error is left behind, none was reported. -/
theorem Honest.quiet (hr : r.Honest) (h : (r.throwAll ds).hasErrors = false) (hd : d ∈ ds) : d.isError = false := by
  induction ds generalizing r with
  | nil => cases hd
  | cons first ds ih =>
    obtain rfl | hd := mem_cons.1 hd
    · refine Bool.eq_false_iff.2 fun herr => ?_
      have hnone := ((r.throw d).leads_throwAll ds (hr.throw d)).2 h
      cases hnone.symm.trans (hasErrors_throw hr (.inr herr))
    · exact ih (hr.throw first) h hd

end Reporter

/-! ### Types and functions -/

theorem declareStructures_leads (r : Reporter) (c : Catalog) (definitions : List StructureDefinition) :
    r.Leads (declareStructures c r definitions).2 := by
  induction definitions generalizing c r with
  | nil => exact .refl r
  | cons definition rest ih =>
    rw [declareStructures]
    split
    · exact ih _ _
    · exact (r.leads_throw _).trans (ih _ _)

theorem instantiateAll_leads (r : Reporter) (c : Catalog) (types : List TypeName) :
    r.Leads (instantiateAll c r types).2 := by
  induction types generalizing c r with
  | nil => exact .refl r
  | cons ty rest ih =>
    rw [instantiateAll]
    split
    · exact ih _ _
    · next h => exact (r.leads_remember (Catalog.instantiate_isError h)).trans (ih _ _)

theorem catalogOf_honest (fileId : Nat) (u : SourceUnit) : (catalogOf fileId u {}).2.Honest :=
  (((declareStructures_leads _ _ _).trans (instantiateAll_leads _ _ _)).trans (Reporter.leads_throwAll _ _)
    Reporter.honest_empty).1

theorem FunctionDefinition.complaint_isError (c : Catalog) (definition : FunctionDefinition) :
    (definition.complaint c).isError = true := by
  unfold complaint
  split
  · rfl
  · next d hresolve => exact (Function.resolveSignature_blames c definition d hresolve).1

/-- Without an error, every function of a unit can be called. -/
theorem registryOf_complete {c r} (hr : r.Honest) {fileId order u}
    (h : (registryOf fileId order u c r).2.hasErrors = false) :
    ∀ f ∈ (registryOf fileId order u c r).1.functions, f.failed = false := by
  intro f hf
  by_contra hfailed
  have hcomplaints := (foldl_declare_unlinked fileId u.functions).link_complaints c order
  have hreported := hcomplaints.mem_iff.2 (mem_map_of_mem (mem_filter.2 ⟨hf, by simpa using hfailed⟩))
  cases (hr.quiet h hreported).symm.trans (FunctionDefinition.complaint_isError c _)

/-! ### Procedures -/

/-- The procedure of a function, if it has one. -/
def procedureOf (catalog : Catalog) (registry : Registry) (options : Options) (f : Function) : Option IR.Procedure :=
  match (compileFunction catalog registry options f).procedure with
  | .ok procedure => procedure
  | .error _ => none

section Functions

variable {catalog : Catalog} {registry : Registry} {options : Options}

theorem compileFunctions_leads (r : Reporter) (functions : List Function) :
    r.Leads (compileFunctions catalog registry options r functions).2 := by
  induction functions generalizing r with
  | nil => exact .refl r
  | cons f rest ih =>
    have hreports := r.leads_throwAll (compileFunction catalog registry options f).reports
    rw [compileFunctions]
    split
    · exact ih r
    dsimp only
    split
    · exact hreports
    · exact (hreports.trans (Reporter.leads_throw _ _)).trans (ih _)
    · exact hreports.trans (ih _)

/-- Without an error, the procedures are those of the functions, and only functions that have none are left out. -/
theorem compileFunctions_complete
    (hyields : ∀ f ∈ registry.functions, ∀ e, f.failed = false →
      (compileFunction catalog registry options f).procedure = .error e → e.IsDiagnostic)
    {r} (hr : r.Honest) {functions} (hfns : functions ⊆ registry.functions) (hok : ∀ f ∈ functions, f.failed = false)
    (h : (compileFunctions catalog registry options r functions).2.hasErrors = false) :
    (compileFunctions catalog registry options r functions).1 =
        .ok (functions.filterMap (procedureOf catalog registry options)) ∧
      ∀ f ∈ functions, ∃ procedure, (compileFunction catalog registry options f).procedure = .ok procedure := by
  induction functions generalizing r with
  | nil => exact ⟨rfl, by simp⟩
  | cons f rest ih =>
    obtain ⟨hf, hrest⟩ := cons_subset.1 hfns
    have hokf := hok f (.head _)
    have hokrest : ∀ g ∈ rest, g.failed = false := fun g hg => hok g (.tail _ hg)
    rw [compileFunctions, if_neg (by simp [hokf])] at h ⊢
    dsimp only at h ⊢
    have hyields := hyields f hf
    have hreports := (r.leads_throwAll (compileFunction catalog registry options f).reports hr).1
    rcases hproc : (compileFunction catalog registry options f).procedure with e | procedure
    · have hdiagnostic := hyields e hokf hproc
      cases e with
      | internal => exact hdiagnostic.elim
      | diagnostic d =>
      -- The error is reported, and stays so.
        rw [hproc] at h
        have hthrown := (compileFunctions_leads _ rest (hreports.throw d)).2 h
        cases hthrown.symm.trans (Reporter.hasErrors_throw hreports (.inr hdiagnostic))
    rw [hproc] at h
    obtain ⟨hprocs, hall⟩ := ih hreports hrest hokrest h
    refine ⟨?_, forall_mem_cons.2 ⟨⟨procedure, hproc⟩, hall⟩⟩
    have hprocedureOf : procedureOf catalog registry options f = procedure := by
      rw [procedureOf, hproc]
    cases procedure with
    | none => simp_all
    | some => simp_all

end Functions

section Unit

variable (fileId : Nat) (u : SourceUnit)

theorem reportsOf_honest (order : List String) : (reportsOf fileId order u).Honest :=
  (Reporter.leads_throwAll _ _ (catalogOf_honest fileId u)).1

variable {fileId u} {options : Options}

theorem reportsOf_hasErrors (h : (compileUnit fileId options u).2.hasErrors = false) :
    (reportsOf fileId options.order u).hasErrors = false := by
  rw [compileUnit_eq] at h
  exact (compileFunctions_leads _ _ (reportsOf_honest fileId u _)).2 h

/-- **Without an error, nothing is left out.** Every function of the unit can be called and was compiled. -/
theorem compileUnit_complete (h : (compileUnit fileId options u).2.hasErrors = false) :
    (compileUnit fileId options u).1 = .ok
      ⟨((typesOf fileId u).structures.filter Structure.isLinked).map Structure.declared,
        (functionsOf fileId u).functions.filterMap (procedureOf (typesOf fileId u) (functionsOf fileId u) options)⟩ ∧
    ∀ f ∈ (functionsOf fileId u).functions, f.failed = false ∧ ∃ procedure,
      (compileFunction (typesOf fileId u) (functionsOf fileId u) options f).procedure = .ok procedure := by
  have hok : ∀ f ∈ (functionsOf fileId u).functions, f.failed = false := by
    rw [← registryOf_eq fileId options.order u (catalogOf fileId u {}).2]
    exact registryOf_complete (catalogOf_honest fileId u) (reportsOf_hasErrors h)
  have hdiagnostic : ∀ f ∈ (functionsOf fileId u).functions, ∀ e, f.failed = false →
      (compileFunction (typesOf fileId u) (functionsOf fileId u) options f).procedure = .error e → e.IsDiagnostic := by
    intro f hf e hokf he
    obtain ⟨types, htypes⟩ := functionsOf_sound fileId u f hf hokf
    have hyields := htypes.yields options
    rw [he] at hyields
    exact hyields
  rw [compileUnit_eq] at h ⊢
  obtain ⟨hprocs, hall⟩ :=
    compileFunctions_complete hdiagnostic (reportsOf_honest fileId u _) (List.Subset.refl _) hok h
  exact ⟨by simp only [hprocs]; rfl, fun f hf => ⟨hok f hf, hall f hf⟩⟩

end Unit

end Lowering
