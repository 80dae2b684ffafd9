import Lowering.Proofs.IR.Module
import Lowering.Proofs.IR.WellFormed
/-!
# Ways through well-formed procedures

A way goes from block to block in the order in which they are listed (`Procedure.WellFormed.order`), so no register is
set twice on it (`Procedure.WellFormed.fresh`), it never comes back to the first block, and a phi finds the block that
control came from among its sources (`Procedure.WellFormed.source`).
-/

namespace Lowering.IR

open List

variable {env : Surroundings} {p : Procedure} {passed : List Block} {b : Block} {before after : Code} {i : Instruction}
  {code : Code} {r : Local}

theorem Closed.isTerminator_iff (h : Closed code) (hcode : code = before ++ i :: after) :
    i.isTerminator = true ↔ after = [] := by
  obtain ⟨body, terminator, rfl, hterm, hplain⟩ := h
  obtain rfl | ⟨after, last, rfl⟩ := eq_nil_or_concat' after
  · simp_all
  rw [← cons_append, ← append_assoc] at hcode
  obtain ⟨rfl, -⟩ := append_singleton_inj.1 hcode
  have := (hplain i (by simp)).1
  simp [this]

theorem Closed.ne_nil (h : Closed code) : code ≠ [] := by
  obtain ⟨body, terminator, rfl, -⟩ := h
  simp

theorem Closed.rest_ne_nil (h : Closed code) (hcode : code = before ++ i :: after) (hi : i.isTerminator = false) :
    after ≠ [] := by
  intro hafter
  rw [(h.isTerminator_iff hcode).2 hafter] at hi
  cases hi

theorem Block.successors_eq (h : b.instructions = before ++ [i]) : b.successors = i.successors := by
  rw [Block.successors, Block.last?, h, List.getLast?_concat]

theorem Procedure.labels_sublist_locals (p : Procedure) : (p.blocks.map Block.label).Sublist p.locals := by
  have hsub : ∀ blocks : List Block,
      (blocks.map Block.label).Sublist (blocks.flatMap fun b => b.label :: definitions b.instructions) := by
    intro blocks
    induction blocks with
    | nil => exact .refl _
    | cons b rest ih => exact .cons_cons _ (ih.trans (sublist_append_right ..))
  exact (hsub p.blocks).trans (sublist_append_right ..)

namespace Procedure.WellFormed

variable (h : p.WellFormed env)
include h

theorem locals_nodup : p.locals.Nodup := by
  rw [h.numbered]
  exact nodup_range

theorem labels_nodup : (p.blocks.map Block.label).Nodup :=
  h.locals_nodup.sublist p.labels_sublist_locals

theorem block_unique (hb : b ∈ p.blocks) (hc : c ∈ p.blocks) (hlabel : b.label = c.label) : b = c :=
  inj_on_of_nodup_map h.labels_nodup hb hc hlabel

/-- A way passes blocks in the order in which they are listed. -/
theorem order (hreach : p.Reaches passed b) :
    ∃ earlier later, p.blocks = earlier ++ b :: later ∧ passed.Sublist earlier := by
  induction hreach with
  | entry hentry => exact ⟨[], _, hentry, .refl _⟩
  | @step passed b next hreach hnext hedge ih =>
    obtain ⟨earlier, later, hblocks, hsub⟩ := ih
    obtain ⟨next', hlater, hlabel⟩ := mem_map.1 (h.forward earlier b later hblocks _ hedge)
    have hsame : next' = next := h.block_unique (by rw [hblocks]; simp [hlater]) hnext hlabel
    obtain ⟨between, rest, rfl⟩ := append_of_mem (hsame ▸ hlater)
    refine ⟨earlier ++ b :: between, rest, by rw [hblocks]; simp, hsub.append ?_⟩
    simp

/-- **No register is set twice on a way.** -/
theorem fresh (hreach : p.Reaches passed b) (hcode : b.instructions = before ++ .set r value :: after) :
    ∀ x ∈ p.known passed before, x.1 ≠ r := by
  obtain ⟨earlier, later, hblocks, hsub⟩ := h.order hreach
  -- The locals that come before are listed in this order.
  have hlocs : (p.parameters.filterMap (fun a => a.value.register?) ++
      (passed.flatMap fun b => definitions b.instructions) ++ definitions before ++ [r]).Sublist p.locals := by
    have hpassed : ∀ {passed earlier : List Block}, passed.Sublist earlier →
        (passed.flatMap fun b => definitions b.instructions).Sublist
          (earlier.flatMap fun b => b.label :: definitions b.instructions) := by
      intro passed earlier hsub
      induction hsub with
      | slnil => exact .refl _
      | cons b _ ih => exact ih.trans (sublist_append_right ..)
      | cons_cons b _ ih => exact (sublist_cons_self ..).append ih
    rw [locals, hblocks, flatMap_append, flatMap_cons, hcode, definitions_append]
    simp only [append_assoc, cons_append]
    refine (List.Sublist.refl _).append ((hpassed hsub).append (.cons _ ((List.Sublist.refl _).append ?_)))
    simp
  have hnodup := h.locals_nodup.sublist hlocs
  rintro x hx rfl
  refine (nodup_append.1 hnodup).2.2 x.1 ?_ x.1 (mem_singleton_self _) rfl
  obtain hx | hx := Typing.mem_after.1 hx
  · have hx := mem_definitions_of_mem_results hx
    rw [definitions_append] at hx
    have hflat :
        definitions (passed.flatMap Block.instructions) = passed.flatMap fun b => definitions b.instructions := by
      simp [definitions, filterMap_flatMap]
    rw [hflat] at hx
    rw [append_assoc]
    exact mem_append_right _ hx
  obtain ⟨a, ha, hx⟩ := mem_filterMap.1 hx
  obtain ⟨id, hid, rfl⟩ := Option.map_eq_some_iff.1 hx
  rw [append_assoc]
  exact mem_append_left _ (mem_filterMap.2 ⟨a, ha, hid⟩)

theorem next (hreach : p.Reaches passed b) (hcode : b.instructions = before ++ [i]) (hl : l ∈ i.successors) :
    ∃ next, p.block? l = some next ∧ p.Reaches (passed ++ [b]) next := by
  rw [← Block.successors_eq hcode] at hl
  obtain ⟨earlier, later, hblocks, -⟩ := h.order hreach
  obtain ⟨next, hlater, rfl⟩ := mem_map.1 (h.forward earlier b later hblocks _ hl)
  have hnext : next ∈ p.blocks := by rw [hblocks]; simp [hlater]
  exact ⟨next, Module.find?_key h.labels_nodup hnext, hreach.step hnext hl⟩

theorem first_unreached (hblocks : p.blocks = b :: rest) (hq : q ∈ p.blocks) : b.label ∉ q.successors := by
  intro hedge
  obtain ⟨earlier, later, hsplit⟩ := append_of_mem hq
  have hlater := h.forward earlier q later hsplit _ hedge
  have hnodup := h.labels_nodup
  rw [hblocks, map_cons, nodup_cons] at hnodup
  refine hnodup.1 ?_
  rw [hblocks] at hsplit
  cases earlier with
  | nil =>
    simp_all
  | cons _ earlier =>
    simp_all

/-- **A phi has a source for the block that control came from**, with a value that can be used there. -/
theorem source {env} (hrunnable : p.Runnable env) (hreach : p.Reaches passed b) {destination ty sources}
    (hphi : .set destination (.phi ty sources) ∈ b.instructions) :
    ∃ passed' q operand, passed = passed' ++ [q] ∧
      sources.find? (fun source => some source.1 == some q.label) = some (q.label, operand) ∧
        operand.Fits (p.held passed []) ty := by
  obtain ⟨⟨-, hne⟩, hfits⟩ := hrunnable.phis b hreach.mem destination ty sources hphi
  obtain ⟨-, hlabels, -⟩ := h.phis b hreach.mem destination ty sources hphi
  cases hreach with
  | entry hentry =>
    have hb : b ∈ p.blocks := by rw [hentry]; exact .head _
    obtain ⟨source, hsrc⟩ := exists_mem_of_ne_nil sources hne
    have hpredecessor := (hlabels source.1).1 (mem_map_of_mem hsrc)
    obtain ⟨q, hq, -, hedge⟩ := (h.predecessors b hb _).1 hpredecessor
    exact absurd hedge (h.first_unreached hentry hq)
  | @step passed' q _ hq hb hedge =>
    have hpredecessor : q.label ∈ sources.map Prod.fst :=
      (hlabels _).2 ((h.predecessors b hb _).2 ⟨q, hq.mem, rfl, hedge⟩)
    obtain ⟨source, hsrc, hlabel⟩ := mem_map.1 hpredecessor
    have hfound : (sources.find? fun source => some source.1 == some q.label).isSome = true :=
      List.find?_isSome.2 ⟨source, hsrc, by simp [hlabel]⟩
    obtain ⟨⟨l, operand⟩, hfind⟩ := Option.isSome_iff_exists.1 hfound
    have hl : l = q.label := by simpa using List.find?_some hfind
    subst hl
    refine ⟨passed', q, operand, rfl, hfind, ?_⟩
    rw [Procedure.held_append]
    exact hfits _ (mem_of_find?_eq_some hfind) passed' q hq rfl

end Procedure.WellFormed

end Lowering.IR
