import Lowering.Proofs.Checking.Body
import Lowering.Proofs.Unit.Complete
/-!
# Keeping values in registers is not seen from outside

Whether a function is compiled, what is reported on the way, and what callers see of its procedure follow from its
checks, and these know nothing of values (`compileFunction_summary`). So a unit is reported the same problems with and
without caching, and its module declares the same (`compileUnit_caching`).
-/

namespace Lowering

open List
open IR (Argument Procedure Prototype Setting)

/-- What is to be seen of a procedure without its code: its name, the types of its parameters and of its result, and
whether it is provided from outside. -/
def IR.Procedure.header (p : Procedure) : Prototype × Bool :=
  (⟨p.name, p.parameters.map Argument.ty, p.returnType⟩, p.external)

section Functions

variable {env : Setting} {catalog : Catalog} {registry : Registry} {f : Function} {types : Signature}
    {options : Options}

theorem Function.Yields.header_eq (h : f.Yields env catalog registry options types (.ok (some p))) :
    p.header = (f.prototype types, f.source.body.isNone) := by
  obtain ⟨hproto, hemits, -⟩ := h
  rw [IR.Procedure.header, hproto]
  cases hemits with
  | outside hbody hext => rw [hext, hbody]; rfl
  | inside hbody _ hflattens => rw [hflattens.internal, hbody]; rfl

/-- What becomes of a function, without its code. -/
def FunctionResult.summary (r : FunctionResult) : Except Failure (Option (Prototype × Bool)) × List Diagnostic :=
  (Option.map IR.Procedure.header <$> r.procedure, r.reports)

theorem Function.Yields.assemble_eq
    (h : f.Yields env catalog registry options types (assemble f i external code)) :
    Option.map IR.Procedure.header <$> assemble f i external code =
      .ok (some (f.prototype types, f.source.body.isNone)) := by
  unfold assemble at h ⊢
  split at h
  · next p _ => exact congrArg (fun header => Except.ok (some header)) h.header_eq
  · exact h.elim

/-- **What becomes of a function is the same with all options.** -/
theorem compileFunction_summary
    (hctx : ∀ returnType slot, catalog.Usable returnType → Context.Sound env ⟨catalog, registry, returnType, slot⟩)
    (hf : f.Linked catalog types) (hallots : ∀ ty ∈ f.source.writtenTypes, catalog.Allots env ty)
    (options options' : Options) :
    (compileFunction catalog registry options f).summary = (compileFunction catalog registry options' f).summary := by
  by_cases habs : f.isAbstract = true
  · simp only [compileFunction, habs, if_true]
  rcases hbody : f.source.body with _ | body
  · simp only [compileFunction, habs, hbody]
  have habs : f.isAbstract = false := by simpa using habs
  have hsignature : f.linkedSignature = .ok types := by rw [Function.linkedSignature, hf.signature]
  have hyields := compileFunction_yields hf hallots hctx options
  have hyields' := compileFunction_yields hf hallots hctx options'
  have hsteady : Agree Path.sketch (fun _ _ => True) (f.lower catalog registry options types body)
      (f.lower catalog registry options' types body) := lowerEntry_steady _ _ body _ _ rfl
  -- Promises of the lowering are kept, so both come to an end or stop with the same problem.
  generalize hr : f.lower catalog registry options types body = r at hsteady
  generalize hr' : f.lower catalog registry options' types body = r' at hsteady
  cases hsteady with
  | ok hsketch =>
    rw [compileFunction_of_ok habs hsignature hbody hr] at hyields ⊢
    rw [compileFunction_of_ok habs hsignature hbody hr'] at hyields' ⊢
    exact Prod.ext (hyields.assemble_eq.trans hyields'.assemble_eq.symm) (congrArg Sketch.reports hsketch)
  | error d hsketch =>
    rw [compileFunction_of_error habs hsignature hbody hr, compileFunction_of_error habs hsignature hbody hr']
    exact Prod.ext rfl (congrArg Sketch.reports hsketch)
  | left =>
    rw [compileFunction_of_error habs hsignature hbody hr] at hyields
    exact hyields.elim
  | right =>
    rw [compileFunction_of_error habs hsignature hbody hr'] at hyields'
    exact hyields'.elim

end Functions

theorem header_append (p : Option Procedure) (procedures : Except InternalError (List Procedure)) :
    List.map IR.Procedure.header <$> ((p.toList ++ ·) <$> procedures) =
      ((p.map IR.Procedure.header).toList ++ ·) <$> (List.map IR.Procedure.header <$> procedures) := by
  cases procedures with
  | error => rfl
  | ok => cases p <;> rfl

/-- Compiling functions one after another gives the same headers with all options, and reports the same problems,
whatever was reported before. -/
theorem compileFunctions_headers
    (hctx : ∀ returnType slot, catalog.Usable returnType → Context.Sound env ⟨catalog, registry, returnType, slot⟩)
    (hreg : registry.Sound catalog) (hfns : functions ⊆ registry.functions)
    (hallots : ∀ f ∈ functions, ∀ ty ∈ f.source.writtenTypes, catalog.Allots env ty) (options options' : Options)
    {r r' : Reporter} (hknown : r.remembered = r'.remembered) :
    List.map IR.Procedure.header <$> (compileFunctions catalog registry options r functions).1 =
        List.map IR.Procedure.header <$> (compileFunctions catalog registry options' r' functions).1 ∧
      ∃ reports, (compileFunctions catalog registry options r functions).2 = r.extend reports ∧
        (compileFunctions catalog registry options' r' functions).2 = r'.extend reports := by
  induction functions generalizing r r' with
  | nil => exact ⟨rfl, [], r.extend_nil.symm, r'.extend_nil.symm⟩
  | cons f rest ih =>
    obtain ⟨hf, hrest⟩ := cons_subset.1 hfns
    obtain ⟨hallotsf, hallotsrest⟩ := forall_mem_cons.1 hallots
    rw [compileFunctions, compileFunctions]
    split
    · exact ih hrest hallotsrest hknown
    · next hok =>
      obtain ⟨types, hlinked⟩ := hreg f hf (by simpa using hok)
      obtain ⟨hproc, hreports⟩ := Prod.mk.inj (compileFunction_summary hctx hlinked hallotsf options options')
      dsimp only
      rw [hreports, r.throwAll_eq, r'.throwAll_eq, ← Reporter.knows_congr hknown]
      generalize (compileFunction catalog registry options' f).reports.filter _ = first
      generalize (compileFunction catalog registry options f).procedure = p at hproc
      generalize (compileFunction catalog registry options' f).procedure = p' at hproc
      -- The problems of the functions behind `f` come behind those of `f`.
      have hbehind (ds : List Diagnostic) := @ih hrest hallotsrest (r.extend ds) (r'.extend ds) hknown
      cases p with
      | error e =>
        cases p' with
        | ok => cases hproc
        | error e' =>
          obtain rfl : e = e' := Except.error.inj hproc
          cases e with
          | internal => exact ⟨rfl, first, rfl, rfl⟩
          | diagnostic d =>
            have hsame : (r'.extend first).knows = (r.extend first).knows := Reporter.knows_congr hknown.symm
            simp only [Reporter.throw_eq, hsame, Reporter.extend_extend]
            obtain ⟨hprocs, reports, hr, hr'⟩ := hbehind (first ++ [d].filter fun d => !(r.extend first).knows d)
            exact ⟨hprocs, _, hr.trans (Reporter.extend_extend ..), hr'.trans (Reporter.extend_extend ..)⟩
      | ok p =>
        cases p' with
        | error => cases hproc
        | ok p' =>
          obtain ⟨hprocs, reports, hr, hr'⟩ := hbehind first
          have hheader : p.map IR.Procedure.header = p'.map IR.Procedure.header := Except.ok.inj hproc
          refine ⟨?_, _, hr.trans (Reporter.extend_extend ..), hr'.trans (Reporter.extend_extend ..)⟩
          dsimp only
          rw [header_append, header_append, hheader, hprocs]

theorem compileUnit_procedures (hm : (compileUnit fileId options u).1 = .ok m) :
    (compileFunctions (typesOf fileId u) (functionsOf fileId u) options (reportsOf fileId options.order u)
      (functionsOf fileId u).functions).1 = .ok m.procedures := by
  rw [compileUnit_eq] at hm
  obtain ⟨procedures, hprocs, rfl⟩ := map_eq_ok hm
  exact hprocs

/-- What is reported on functions of a unit that repeat others. -/
def repeatedOf (fileId : Nat) (order : List String) (u : SourceUnit) : List Diagnostic :=
  ((u.functions.foldl Registry.declare { fileId }).repetitions (typesOf fileId u) order).filter fun d =>
    !(catalogOf fileId u {}).2.knows d

/-- Before bodies are compiled, only the reports on functions that repeat others depend on the order of the names. -/
theorem reportsOf_eq (fileId : Nat) (u : SourceUnit) :
    ∃ before : Reporter, ∀ order, reportsOf fileId order u = before.extend (repeatedOf fileId order u) := by
  have hunlinked := foldl_declare_unlinked fileId u.functions
  refine ⟨(catalogOf fileId u {}).2.extend
    (((u.functions.foldl Registry.declare { fileId }).functions.filterMap
      (Registry.unresolved? (typesOf fileId u))).filter
      fun d => !(catalogOf fileId u {}).2.knows d), fun order => ?_⟩
  have hlink := congrArg Prod.snd (hunlinked.link_eq (c := typesOf fileId u) order)
  rw [Reporter.extend_extend, repeatedOf, ← filter_append]
  exact (congrArg (Reporter.throwAll _) hlink).trans (Reporter.throwAll_eq ..)

/-- With all options the same problems are reported behind those of `reportsOf`, and the modules declare the same. -/
theorem compileUnit_same (hm : (compileUnit fileId options u).1 = .ok m)
    (hm' : (compileUnit fileId options' u).1 = .ok m') :
    (∃ reports, (compileUnit fileId options u).2 = (reportsOf fileId options.order u).extend reports ∧
      (compileUnit fileId options' u).2 = (reportsOf fileId options'.order u).extend reports) ∧
    m.structures = m'.structures ∧ m.procedures.map IR.Procedure.header = m'.procedures.map IR.Procedure.header := by
  obtain ⟨hc, hsettled⟩ := typesOf_sound fileId u
  have hregistry := functionsOf_sound fileId u
  have hknown : (reportsOf fileId options.order u).remembered = (reportsOf fileId options'.order u).remembered := by
    obtain ⟨before, hbefore⟩ := reportsOf_eq fileId u
    rw [hbefore, hbefore]
    rfl
  obtain ⟨hprocedures, hreports⟩ := compileFunctions_headers
    (surroundingsOf_sound hc hsettled hregistry (IR.Surroundings.free_permits _ _) rfl) hregistry (List.Subset.refl _)
    (fun _ _ _ _ _ _ => trivial) options options' hknown
  obtain ⟨_, hemits, hstructures, -⟩ := compileUnit_emits fileId options u
  cases hm.symm.trans hemits
  obtain ⟨_, hemits', hstructures', -⟩ := compileUnit_emits fileId options' u
  cases hm'.symm.trans hemits'
  rw [compileUnit_procedures hm, compileUnit_procedures hm'] at hprocedures
  rw [compileUnit_eq, compileUnit_eq]
  exact ⟨hreports, hstructures.trans hstructures'.symm, Except.ok.inj hprocedures⟩

theorem repeatedOf_perm (fileId : Nat) (order order' : List String) (u : SourceUnit) :
    (repeatedOf fileId order u).Perm (repeatedOf fileId order' u) :=
  ((Registry.repetitions_perm order).trans (Registry.repetitions_perm order').symm).filter _

/-- With all options the same problems are reported. -/
theorem compileUnit_perm (fileId : Nat) (options options' : Options) (u : SourceUnit) :
    (compileUnit fileId options u).2.collected.Perm (compileUnit fileId options' u).2.collected := by
  obtain ⟨m, hm, -⟩ := compileUnit_emits fileId options u
  obtain ⟨m', hm', -⟩ := compileUnit_emits fileId options' u
  obtain ⟨⟨reports, hreports, hreports'⟩, -⟩ := compileUnit_same hm hm'
  obtain ⟨before, hbefore⟩ := reportsOf_eq fileId u
  rw [hreports, hreports', hbefore, hbefore]
  exact ((repeatedOf_perm ..).append_left _).append_right _

end Lowering
