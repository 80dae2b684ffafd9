import Mathlib.Data.Set.Function
import Lowering.Proofs.IR.Accepting
/-!
# Flattening computes a canonical form

Flattening looks at the order in which locals are defined and at nothing else about them. So code whose locals are
called otherwise, different ones differently, flattens to the same procedure (`flatten_rename`). The places that
flattening gives to locals are such names themselves, and a flattened procedure is flattened already.
-/

namespace Lowering.IR

open List

variable {ρ σ : Local → Local}

/-! ### Renaming twice -/

theorem Operand.rename_rename (o : Operand) : (o.rename σ).rename ρ = o.rename (ρ ∘ σ) := by
  cases o <;> rfl

theorem Argument.rename_rename (a : Argument) : (a.rename σ).rename ρ = a.rename (ρ ∘ σ) :=
  congrArg (Argument.mk a.ty) a.value.rename_rename

theorem Value.rename_rename (v : Value) : (v.rename σ).rename ρ = v.rename (ρ ∘ σ) := by
  cases v <;> simp [Value.rename, Argument.rename_rename, Operand.rename_rename]

theorem Instruction.rename_rename (i : Instruction) : (i.rename σ).rename ρ = i.rename (ρ ∘ σ) := by
  cases i <;> simp [Instruction.rename, Argument.rename_rename, Value.rename_rename, Function.comp_def]

/-! ### What a renaming touches -/

theorem Operand.rename_congr {o : Operand} (h : ∀ id ∈ o.mentions, ρ id = σ id) : o.rename ρ = o.rename σ := by
  cases o with
  | register id => exact congrArg Operand.register (h id (mem_singleton_self id))
  | _ => rfl

theorem Argument.rename_congr {a : Argument} (h : ∀ id ∈ a.mentions, ρ id = σ id) : a.rename ρ = a.rename σ :=
  congrArg (Argument.mk a.ty) (Operand.rename_congr h)

theorem Argument.map_rename_congr {as : List Argument} (h : ∀ id ∈ as.flatMap Argument.mentions, ρ id = σ id) :
    as.map (·.rename ρ) = as.map (·.rename σ) :=
  map_congr_left fun _ ha => rename_congr fun id hid => h id (mem_flatMap.2 ⟨_, ha, hid⟩)

theorem Value.rename_congr {v : Value} (h : ∀ id ∈ v.mentions, ρ id = σ id) : v.rename ρ = v.rename σ := by
  cases v with
  | alloc => rfl
  | load => rw [rename, rename, Argument.rename_congr h]
  | elementPointer pointee base indices result =>
    obtain ⟨hbase, hindices⟩ := forall_mem_append.1 h
    rw [rename, rename, Argument.rename_congr hbase, Argument.map_rename_congr hindices]
  | binary | compare =>
    obtain ⟨hlhs, hrhs⟩ := forall_mem_append.1 h
    rw [rename, rename, Operand.rename_congr hlhs, Operand.rename_congr hrhs]
  | bitcast | convert => rw [rename, rename, Argument.rename_congr h]
  | sizeOf => rfl
  | call => rw [rename, rename, Argument.map_rename_congr h]
  | phi ty sources =>
    refine congrArg (Value.phi ty) (map_congr_left fun s hs => ?_)
    obtain ⟨hlabel, hoperand⟩ := forall_mem_cons.1 (forall_mem_flatMap.1 h s hs)
    rw [hlabel, Operand.rename_congr hoperand]

theorem Instruction.rename_congr {i : Instruction} (h : ∀ id ∈ i.defined?.toList ++ i.mentions, ρ id = σ id) :
    i.rename ρ = i.rename σ := by
  obtain ⟨hdefined, hmentions⟩ := forall_mem_append.1 h
  rcases i with id | ⟨destination, v⟩ | ⟨address, v⟩ | _ | ⟨condition, positive, negative⟩ | target | v
  · rw [rename, rename, hdefined id (mem_singleton_self id)]
  · rw [rename, rename, hdefined destination (mem_singleton_self destination), Value.rename_congr hmentions]
  · obtain ⟨haddr, hv⟩ := forall_mem_append.1 hmentions
    rw [rename, rename, Argument.rename_congr haddr, Argument.rename_congr hv]
  · rw [rename, rename, Argument.map_rename_congr hmentions]
  · obtain ⟨hcond, htargets⟩ := forall_mem_append.1 hmentions
    simp [rename, Argument.rename_congr hcond, *]
  · rw [rename, rename, hmentions target (mem_singleton_self target)]
  cases v with
  | none => rfl
  | some v =>
    exact congrArg (fun v => ret (some v)) (Argument.rename_congr (forall_mem_flatMap.1 hmentions v (by simp)))

/-! ### What is mentioned in renamed code -/

theorem Operand.mentions_rename (o : Operand) : (o.rename ρ).mentions = o.mentions.map ρ := by
  cases o <;> rfl

theorem Argument.mentions_rename (a : Argument) : (a.rename ρ).mentions = a.mentions.map ρ := a.value.mentions_rename

theorem Value.mentions_rename (v : Value) : (v.rename ρ).mentions = v.mentions.map ρ := by
  cases v <;> simp [rename, mentions, Argument.mentions_rename, Operand.mentions_rename, flatMap_map, map_flatMap]

theorem Instruction.mentions_rename (i : Instruction) : (i.rename ρ).mentions = i.mentions.map ρ := by
  cases i with
  | ret v => cases v <;> simp [rename, mentions, Argument.mentions_rename]
  | _ => simp [rename, mentions, Argument.mentions_rename, Value.mentions_rename, flatMap_map, map_flatMap]

/-! ### The same places -/

namespace Numbering

theorem collect_rename (parameters : List Argument) (body : Code) :
    collect (parameters.map (·.rename ρ)) (body.rename ρ) = (collect parameters body).map ρ := by
  have hdefined : (Code.rename ρ body).filterMap Instruction.defined? = (body.filterMap Instruction.defined?).map ρ :=
    definitions_rename body
  rw [collect, collect, filterMap_register?_rename, hdefined, map_append]

theorem place_map {numbering : Numbering} (hρ : Set.InjOn ρ {id | id ∈ numbering}) {id} (h : id ∈ numbering) :
    place (numbering.map ρ) (ρ id) = numbering.place id := by
  unfold place
  induction numbering with
  | nil => cases h
  | cons first rest ih =>
    rw [map_cons, idxOf_cons, idxOf_cons]
    by_cases heq : first = id
    · simp [heq]
    have hne : ρ first ≠ ρ id := fun hsame => heq (hρ (.head _) h hsame)
    have hrest : id ∈ rest := (mem_cons.1 h).resolve_left (Ne.symm heq)
    rw [beq_false_of_ne heq, beq_false_of_ne hne, cond_false, cond_false,
      ih (hρ.mono fun _ hid => mem_cons_of_mem _ hid) hrest]

end Numbering

variable {name : String} {returnType : Ty} {parameters : List Argument} {external : Bool} {body : Code} {p : Procedure}

/-- Code can be flattened whatever its locals are called, if different ones are called differently. -/
theorem Flattenable.rename (h : Flattenable parameters body)
    (hρ : Set.InjOn ρ {id | id ∈ Numbering.collect parameters body}) :
    Flattenable (parameters.map (·.rename ρ)) (body.rename ρ) := by
  have hcollect := Numbering.collect_rename (ρ := ρ) parameters body
  refine ⟨?_, ?_, Code.grouped_rename_iff.2 h.grouped, ?_⟩
  · rw [hcollect]
    exact h.once.map_on fun a ha b hb hab => hρ ha hb hab
  · intro i hi id hid
    obtain ⟨j, hj, rfl⟩ := mem_map.1 hi
    rw [Instruction.mentions_rename] at hid
    obtain ⟨old, hold, rfl⟩ := mem_map.1 hid
    rw [hcollect]
    exact mem_map_of_mem (h.defined j hj old hold)
  · exact (Code.targets_rename_iff hρ (fun _ => mem_collect_of_label) h.defined).2 h.targets

/-- The new names lead to the same places. -/
theorem Flattenable.flattened_rename (h : Flattenable parameters body)
    (hρ : Set.InjOn ρ {id | id ∈ Numbering.collect parameters body}) :
    flattened name returnType (parameters.map (·.rename ρ)) external (body.rename ρ) =
      flattened name returnType parameters external body := by
  set numbering := Numbering.collect parameters body with hnumbering
  have hplace : ∀ id ∈ numbering, (Numbering.place (numbering.map ρ) ∘ ρ) id = numbering.place id := fun id hid =>
    Numbering.place_map hρ hid
  have hparams : (parameters.map (·.rename ρ)).map (·.rename (Numbering.place (numbering.map ρ))) =
      parameters.map (·.rename numbering.place) := by
    rw [map_map]
    refine map_congr_left fun a ha => (Argument.rename_rename a).trans (Argument.rename_congr fun id hid => ?_)
    exact hplace id (mem_append_left _ (mem_filterMap.2 ⟨a, ha, Option.mem_toList.1 hid⟩))
  have hbody : Code.rename (Numbering.place (numbering.map ρ)) (body.rename ρ) = body.rename numbering.place := by
    unfold Code.rename
    rw [map_map]
    refine map_congr_left fun i hi => (Instruction.rename_rename i).trans (Instruction.rename_congr fun id hid => ?_)
    exact hplace id (Numbering.renumbers_iff.1 (Numbering.renumbers_collect_iff.2 h.defined) i hi id hid)
  rw [flattened, flattened, Numbering.collect_rename, hparams, hbody]

/-- **Flattening does not depend on how locals are called**, if different ones are called differently. -/
theorem flatten_rename (h : flatten name returnType parameters external body = .ok p)
    (hρ : Set.InjOn ρ {id | id ∈ Numbering.collect parameters body}) :
    flatten name returnType (parameters.map (·.rename ρ)) external (body.rename ρ) = .ok p := by
  obtain ⟨hcode, rfl⟩ := flatten_eq_ok_iff.1 h
  exact flatten_eq_ok_iff.2 ⟨hcode.rename hρ, (hcode.flattened_rename hρ).symm⟩

/-- **`flatten` computes a canonical form.** Code whose locals are renamed by an injective `ρ` flattens to the same
procedure, and a flattened procedure flattens to itself. -/
theorem flatten_canonical (h : flatten name returnType parameters external body = .ok p) :
    (∀ ρ, Function.Injective ρ →
      flatten name returnType (parameters.map (·.rename ρ)) external (body.rename ρ) = .ok p) ∧
    flatten p.name p.returnType p.parameters p.external (unparse p.blocks) = .ok p := by
  refine ⟨fun ρ hρ => flatten_rename h hρ.injOn, ?_⟩
  -- The procedure is the code with every local renamed to its place.
  have hagain := flatten_rename h (Numbering.place_injOn _)
  obtain ⟨hcode, rfl⟩ := flatten_eq_ok_iff.1 h
  rw [unparse_flattened hcode]
  exact hagain

/-- A loop, and the same loop with its locals renamed, which are flattened to one procedure. -/
theorem flatten_canonical_loop :
    let p := flattened "loop" (.int 32) [.register (.int 32) 7] false loopBody
    flatten "loop" (.int 32) [.register (.int 32) 7] false loopBody = .ok p ∧
      flatten "loop" (.int 32) [.register (.int 32) 17] false (loopBody.rename (· + 10)) = .ok p ∧
      flatten "loop" (.int 32) [.register (.int 32) 0] false (unparse p.blocks) = .ok p := by
  intro p
  have h : flatten "loop" (.int 32) [.register (.int 32) 7] false loopBody = .ok p := by decide +kernel
  obtain ⟨hrename, hagain⟩ := flatten_canonical h
  exact ⟨h, hrename (· + 10) fun a b hab => Nat.add_right_cancel hab, hagain⟩

end Lowering.IR
