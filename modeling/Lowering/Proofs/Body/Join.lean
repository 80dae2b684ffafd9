import Lowering.Proofs.Body.Arrivals
import Lowering.Proofs.IR.Laid
/-!
# Bringing branches together keeps the variables in good order

Branches arrive at points. What can be relied on behind the place where they meet is what is known at all of them
(`IR.common`), and the registers that are set by phis there. A variable whose value the branches agree on has a value
that is known at every arrival; for any other, each branch loads the value at its end if it has to, and the phi takes it
from there.
-/

namespace Lowering

open List
open IR (Code Operand Point Setting Typing)

/-! ### Points that meet -/

variable {tails tails' : List Code} {Γ : Typing} {arrivals : List Arrival}

namespace IR

/-- The registers that are set at all of some points. -/
def common : List Point → Typing
  | [] => []
  | p :: rest => p.known.filter fun x => rest.all fun q => q.known.contains x

variable {points : List Point}

theorem mem_common (h : points ≠ []) : x ∈ common points ↔ ∀ p ∈ points, x ∈ p.known := by
  cases points with
  | nil => exact absurd rfl h
  | cons => simp [common]

def behind (points : List Point) (tails : List Code) : List Point :=
  List.zipWith (fun p tail => ⟨p.label, p.known.past tail⟩) points tails

/-- Each code continues another. -/
def Longer (tails tails' : List Code) : Prop := Forall₂ (fun tail tail' => ∃ more, tail' = tail ++ more) tails tails'

theorem SourcesFit.longer (h : SourcesFit (behind points tails) ty sources)
    (hlonger : Longer tails tails') : SourcesFit (behind points tails') ty sources := by
  induction hlonger generalizing points sources with
  | nil => omega
  | cons htail _ ih =>
    rcases points with _ | ⟨p, points⟩
    · exact h
    cases h with
    | cons hsrc hrest =>
      obtain ⟨more, rfl⟩ := htail
      exact .cons ⟨hsrc.1, hsrc.2.mono fun x hx => Typing.mem_past_append.2 (Typing.subset_past _ _ hx)⟩
        (ih hrest)

theorem PhiFits.longer (h : PhiFits (behind points tails) i) (hlonger : Longer tails tails') :
    PhiFits (behind points tails') i := by
  obtain ⟨destination, ty, sources, rfl, hsrcs, hscalar, hsome⟩ := h
  exact ⟨destination, ty, sources, rfl, hsrcs.longer hlonger, hscalar, hsome⟩

end IR

theorem IR.Operand.agrees_eq_true {a b : Operand} (h : a.agrees b = true) :
    a = b ∨ ∃ x y, a = .float x ∧ b = .float y := by
  cases a with
  | float x =>
    cases b with
    | float y => simp
    | _ => cases h
  | _ => exact .inl (by simpa [Operand.agrees] using h)

variable {env : Setting} {c : Catalog} {w : Workspace}

/-! ### Values that arrive -/

/-- A branch arrives at a point with its variables in good order. -/
structure Arrival.At (c : Catalog) (a : Arrival) (p : Point) : Prop where
  label : a.label = p.label
  vars : ∀ v ∈ a.scope.vars, v.Sound c p.known

theorem Variable.Supplies.fits (env : Setting) {v : Variable} (h : v.Supplies first load o last)
    (hv : v.Sound c Γ) (tail : Code) :
    IR.Straight env (Γ.past tail) load ∧ o.Fits (Γ.past (tail ++ load)) v.ty.irType := by
  rcases h with hcache | ⟨hcache, hstor⟩
  · exact ⟨.nil _, (hv.cached _ hcache).mono (Typing.subset_past ..)⟩
  refine ⟨.single ⟨(hv.mono (Typing.subset_past ..)).load_typed hstor, hv.load_feasible hstor⟩, ?_⟩
  rw [TypeRef.irType_of_not_linear (hv.not_linear hstor)]
  exact Typing.mem_past_append.2 (.head _)

/-- The values of a variable at the ends of branches: each is known behind what is loaded there. -/
theorem Arrives.fits {ty : TypeRef} {first last : Nat}
    (h : Arrives first arrivals states tails tails' sources last) (hat : Forall₂ (Arrival.At c) arrivals points)
    (hstates : Forall₂ (fun v p => v.Sound c p.known ∧ v.ty = ty) states points)
    (htails : Forall₂ (fun p tail => IR.Straight env p.known tail) points tails) :
    Forall₂ (fun p tail => IR.Straight env p.known tail) points tails' ∧ IR.Longer tails tails' ∧
      IR.SourcesFit (IR.behind points tails') ty.irType sources := by
  induction h generalizing points with
  | nil =>
    cases hat
    exact ⟨.nil, .nil, .nil⟩
  | @cons _ _ _ _ _ _ _ tail _ _ _ _ _ hsupplies _ ih =>
    cases hat with
    | cons hat hats =>
      cases hstates with
      | cons hstate hstates =>
        cases htails with
        | cons htail htails =>
          obtain ⟨hv, rfl⟩ := hstate
          obtain ⟨hload, hfits⟩ := hsupplies.fits env hv tail
          obtain ⟨hstraight, hlonger, hsrcs⟩ := ih hats hstates htails
          exact ⟨.cons (htail.append hload) hstraight, .cons ⟨_, rfl⟩ hlonger, .cons ⟨hat.label, hfits⟩ hsrcs⟩

/-! ### Bringing variables together -/

/-- Code that brings branches together: straight code at the end of each, and phis where they meet. -/
structure Synced.Sound (env : Setting) (points : List Point) (synced : Synced) : Prop where
  tails : Forall₂ (fun p tail => IR.Straight env p.known tail) points synced.tails
  join : ∀ i ∈ synced.join, IR.PhiFits (IR.behind points synced.tails) i

theorem Arrival.At.states {points states id} {own : Variable} (hat : Forall₂ (Arrival.At c) arrivals points)
    (hstates : Forall₂ (fun a v => a.scope.get? id = some v ∧ own.Same v) arrivals states) :
    Forall₂ (fun v p => v.Sound c p.known ∧ own.Same v) states points := by
  induction hat generalizing states with
  | nil =>
    cases hstates
    exact .nil
  | cons hat _ ih =>
    cases hstates with
    | cons hv hstates => exact .cons ⟨hat.vars _ (mem_of_getElem? hv.1), hv.2⟩ (ih hstates)

/-- A value that is known at all of some points can be relied on where they meet. -/
theorem IR.Operand.fits_common (hne : points ≠ []) {value : Operand} (h : ∀ p ∈ points, value.Fits p.known ty) :
    value.Fits (IR.common points) ty := by
  obtain ⟨p, hp⟩ := exists_mem_of_ne_nil points hne
  cases value with
  | register => exact (IR.mem_common hne).2 h
  | _ => exact h p hp

theorem IR.Operand.Fits.of_agrees {a b : Operand} (ha : a.Fits Γ ty) (hb : b.Fits Δ ty) (h : a.agrees b = true) :
    b.Fits Γ ty := by
  obtain rfl | ⟨x, y, rfl, rfl⟩ := Operand.agrees_eq_true h
  · exact ha
  · exact hb

theorem cachesAgree_eq_true (h : cachesAgree (first :: rest) = true) (hv : v ∈ first :: rest) :
    (v.cache = none ∧ first.cache = none) ∨ ∃ a b, v.cache = some a ∧ first.cache = some b ∧ a.agrees b = true := by
  have := all_eq_true.1 h v hv
  grind

theorem Variable.Sound.agreed {own : Variable} (hown : own.Sound c Δ) (hcommon : IR.common points ⊆ Δ)
    (hstates : Forall₂ (fun v p => v.Sound c p.known ∧ own.Same v) states points) (hne : points ≠ [])
    (hagree : cachesAgree states = true) : (own.met states (states.head?.bind Variable.cache)).Sound c Δ := by
  unfold Variable.met
  cases hstates with
  | nil => exact absurd rfl hne
  | @cons first p rest points hfirst hrest =>
    have hall : Forall₂ _ (first :: rest) (p :: points) := .cons hfirst hrest
    simp only [List.head?_cons, Option.bind_some]
    rcases hcache : first.cache with _ | value
    · have hlin : own.ty.isLinear = false := by
        rw [← hfirst.2.ty]
        by_contra hlin
        obtain ⟨-, value, hvalue⟩ := hfirst.1.linear (by simpa using hlin)
        simp_all
      have hclean : (first :: rest).any Variable.dirty = false := by
        refine any_eq_false.2 fun v hv hdirty => ?_
        obtain ⟨q, -, hsound, -⟩ := exists_right hall hv
        obtain ⟨value, hvalue⟩ := hsound.dirty hdirty
        obtain ⟨hnone, -⟩ | ⟨_, _, -, hsome, -⟩ := cachesAgree_eq_true hagree hv
        · simp_all
        · simp_all
      rw [hclean]
      exact hown.without_cache hlin
    refine hown.with_cache value ((IR.Operand.fits_common hne fun q hq => ?_).mono hcommon) _
    obtain ⟨v, hv, hsound, hsame⟩ := exists_left hall hq
    obtain ⟨-, hnone⟩ | ⟨a, b, ha, hb, hab⟩ := cachesAgree_eq_true hagree hv
    · simp_all
    · cases hcache.symm.trans hb
      exact (hsame.ty ▸ hsound.cached a ha).of_agrees (hfirst.2.ty ▸ hfirst.1.cached value hcache) hab

theorem Workspace.Sound.drawn (h : w.Sound c Γ) (hle : (w.fresh : Nat) ≤ last) :
    Workspace.Sound c (Γ.past [.set last value]) { w with fresh := last + 1 } where
  vars v hv := (h.vars v hv).mono (Typing.subset_past ..)
  ahead x hx := by
    obtain hx | hx := Typing.mem_past.1 hx
    · simp [mem_singleton.1 (IR.mem_definitions_of_mem_kept hx)]
    · exact Nat.lt_succ_of_lt ((h.ahead x hx).trans_le hle)

theorem tails_nil (env : Setting) (hat : Forall₂ (Arrival.At c) arrivals points) :
    Forall₂ (fun p tail => IR.Straight env p.known tail) points (arrivals.map fun _ => []) := by
  induction hat with
  | nil => exact .nil
  | cons _ _ ih => exact .cons (.nil _) ih

/-- The variables are in good order where the branches meet, behind the phis so far. -/
theorem Meeting.sound {n : Nat} (h : Meeting arrivals w0 n synced w)
    (hat : Forall₂ (Arrival.At c) arrivals points) (hne : points ≠ []) (hw0 : w0.Sound c (IR.common points))
    (hreach : ∀ a ∈ arrivals, w0.scope.Reaches a.scope) :
    synced.Sound env points ∧ w.Sound c ((IR.common points).past synced.join) := by
  induction h with
  | start => exact ⟨⟨tails_nil env hat, by simp⟩, hw0⟩
  | agreed h hown hstates hagree ih =>
    have hstates := Arrival.At.states hat (h.states_same hreach hown hstates)
    exact ⟨ih.1, ih.2.put _ ((ih.2.get? hown).agreed (Typing.subset_past ..) hstates hne hagree)⟩
  | @contested n synced w own states tails sources last h hown hstates hagree harrives ih =>
    obtain ⟨hsynced, hsound⟩ := ih
    have hown := hsound.get? hown
    have hstates := (Arrival.At.states hat (h.states_same hreach ‹_› hstates)).imp fun v p hv => And.intro hv.1 hv.2.ty
    obtain ⟨hstraight, hlonger, hsrcs⟩ := harrives.fits hat hstates hsynced.tails
    have hsome : sources ≠ [] := by
      rintro rfl
      have hlen := hstraight.length_eq
      have hnone := hsrcs.length_eq
      simp only [IR.behind, length_zipWith, ← hlen, Nat.min_self, length_nil] at hnone
      exact hne (length_eq_zero_iff.1 hnone.symm)
    refine ⟨⟨hstraight, fun i hi => ?_⟩, ?_⟩
    · obtain hi | hi := mem_append.1 hi
      · exact (hsynced.join i hi).longer hlonger
      · cases mem_singleton.1 hi
        exact ⟨_, _, _, rfl, hsrcs, TypeRef.irType_isScalar hown.usable hown.notVoid, hsome⟩
    · have hset : (last, own.ty.irType) ∈ (IR.common points).past (synced.join ++
          [.set last (.phi own.ty.irType sources)]) := Typing.mem_past_append.2 (.head _)
      have hown' := (hown.mono fun x hx => Typing.mem_past_append.2 (Typing.subset_past _ _ hx)).with_cache
        (.register last) hset (states.any Variable.dirty)
      exact ((hsound.drawn harrives.le).congr fun x => Typing.mem_past_append.symm).put n hown'

/-- What bringing variables together comes to. -/
structure Syncs (env : Setting) (c : Catalog) (points : List Point) (w : Workspace) (synced : Synced)
    (w' : Workspace) : Prop where
  good : synced.Sound env points
  sound : w'.Sound c ((IR.common points).past synced.join)
  continues : w.scope.Continues w'.scope
  draws : Draws w.fresh w'.fresh (IR.definitions (synced.tails.flatten ++ synced.join))

/-- **Bringing branches together.** What the variables are bound to behind it is known at every arrival, or set by a
phi. -/
theorem syncVariables_syncs (env : Setting) (hat : Forall₂ (Arrival.At c) arrivals points) (hne : points ≠ [])
    (h : w.Sound c (IR.common points)) (hreach : ∀ a ∈ arrivals, w.scope.Reaches a.scope) :
    Secures (syncVariables arrivals) w fun synced w' => Syncs env c points w synced w' := by
  have havailable : ∀ a ∈ arrivals, ∀ v ∈ a.scope.vars, v.Available := by
    intro a ha v hv
    obtain ⟨p, -, hp⟩ := exists_right hat ha
    exact (hp.vars v hv).available
  obtain ⟨synced, w', hsync, hmeeting⟩ := syncVariables_meeting hreach havailable
  obtain ⟨hgood, hsound⟩ := hmeeting.sound hat hne h hreach
  exact .of_eq hsync ⟨hgood, hsound, hmeeting.continues, hmeeting.draws⟩

end Lowering
