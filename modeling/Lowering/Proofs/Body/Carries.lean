import Lowering.Proofs.Body.Join
import Lowering.Proofs.IR.Module
import Lowering.Proofs.Machine.Straight
/-!
# What a branch brings along to where branches meet

There is more than one way to say what a variable stands for. Any of them will do here (`Standing`), as long as it
depends on the registers that the variable uses only. What a branch brings along is followed from such registers
(`Carries`): through the end of the branch, where only fresh registers are set, and then through the phis, which find
there what was loaded.

Branches agree on a value if they know it by equal operands. Equal numbers need not be the same, so what can be known is
restricted to numbers that are (`Scope.Admitted`).
-/

namespace Lowering

open IR (Code Local Operand)

/-! ### Registers of variables -/

namespace Registers

variable {ids more : List Local} {R R' R'' : Registers}

/-- Only registers of a list are changed. -/
def Alters (ids : List Local) (R R' : Registers) : Prop := ∀ id, id ∉ ids → R'.get? id = R.get? id

theorem Alters.refl (ids : List Local) (R : Registers) : Alters ids R R := fun _ _ => rfl

theorem Alters.append (h : Alters ids R R') (h' : Alters more R' R'') : Alters (ids ++ more) R R'' := fun id hid => by
  rw [List.mem_append, not_or] at hid
  rw [h' id hid.2, h id hid.1]

theorem Alters.set (R : Registers) (id : Local) (v : Scalar) : Alters [id] R (R.set id v) := fun other hother => by
  rw [get?_set, if_neg (by simp_all)]

end Registers

/-- A register that a variable is found by: it has the value, or the address of the storage. -/
def Variable.Uses (v : Variable) (r : Local) : Prop :=
  (∃ o, v.cache = some o ∧ o.register? = some r) ∨
    ∃ address, v.storage = some address ∧ address.value.register? = some r

/-- A register that a variable of a scope is found by. -/
def Scope.Uses (s : Scope) (r : Local) : Prop := ∃ v ∈ s.vars, v.Uses r

variable {v own : Variable} {r : Local}

theorem Variable.Same.with_eq (h : own.Same v) (cache : Option Operand) (dirty : Bool) :
    { own with cache, dirty } = { v with cache, dirty } := by
  rw [← h.name, ← h.ty, ← h.storage]

/-- The operand for a value reads a register that is known already, or the one that is loaded. -/
theorem Variable.Supplies.uses (h : v.Supplies first load o last) (hr : o.register? = some r) :
    v.Uses r ∨ r ∈ IR.definitions load := by
  rcases h with hcache | _
  · exact .inl (.inl ⟨o, hcache, hr⟩)
  cases hr
  exact .inr (.head _)

/-! ### What variables stand for -/

/-- A way to say that a variable stands for the value that belongs at its position. -/
structure Standing (sites : Site → Prop) (M : Memory) where
  stands : Nat → Registers → Variable → Prop
  /-- What an operand for the value comes to. -/
  handle : Nat → Scalar
  congr : ∀ {id R R' v}, stands id R v → (∀ r, v.Uses r → R'.get? r = R.get? r) → stands id R' v
  /-- A variable may be known by another operand that has its value. -/
  known : ∀ {id R v o dirty}, stands id R v → (dirty = false → v.dirty = false) →
    R.operand v.ty.irType o = .ok (handle id) → stands id R { v with cache := some o, dirty }
  unknown : ∀ {id R v}, stands id R v → v.cache = none → stands id R { v with dirty := false }
  /-- The value is there behind the code that loads it. -/
  supplies : ∀ {id R v first load o last}, stands id R v → v.Supplies first load o last →
    ∃ R', (∀ site, sites site → site.Runs load R M R' M) ∧ Registers.Alters (IR.definitions load) R R' ∧
      R'.operand v.ty.irType o = .ok (handle id)

/-- Code at the end of a branch, and then the code where branches meet, leave the first `n` variables of a scope
standing for what they stood for on the branch. In between, registers may be set that nothing is found by. -/
def Carries (a : Arrival) (n : Nat) (s : Scope) (tail join : Code) : Prop :=
  ∀ {sites M} (k : Standing sites M) {R : Registers}, (∀ id v, a.scope.get? id = some v → k.stands id R v) →
    (∀ r, a.scope.Uses r → r ∉ IR.definitions (tail ++ join)) → ∃ R',
      (∀ site, sites site → site.Runs tail R M R' M) ∧ Registers.Alters (IR.definitions tail) R R' ∧
      ∀ R1, (∀ r, a.scope.Uses r ∨ r ∈ IR.definitions tail → R1.get? r = R'.get? r) → ∃ R2,
        (∀ site, sites site → site.frame.previous = some a.label → site.Runs join R1 M R2 M) ∧
        Registers.Alters (IR.definitions join) R1 R2 ∧
        ∀ id v, id < n → s.get? id = some v →
          k.stands id R2 v ∧ ∀ r, v.Uses r → a.scope.Uses r ∨ r ∈ IR.definitions join

namespace Carries

variable {a : Arrival} {s : Scope} {n : Nat} {tail join : Code}

theorem nil (a : Arrival) (s : Scope) : Carries a 0 s [] [] := by
  intro sites M k R _ _
  refine ⟨R, fun _ _ => .nil, .refl _ _, fun R1 _ => ⟨R1, fun _ _ _ => .nil, .refl _ _, ?_⟩⟩
  simp

/-- A variable whose value is known by the same operand on every branch, or by none. -/
theorem agreed (h : Carries a n s tail join) (hv : a.scope.get? n = some v) (hsame : own.Same v)
    (hclean : dirty = false → v.dirty = false) (hdirty : v.cache = none → dirty = false) :
    Carries a (n + 1) (s.put n { own with cache := v.cache, dirty }) tail join := by
  intro sites M k R hstands huses
  obtain ⟨R', hruns, halters, hjoin⟩ := h k hstands huses
  refine ⟨R', hruns, halters, fun R1 hR1 => ?_⟩
  obtain ⟨R2, hruns2, halters2, hvars⟩ := hjoin R1 hR1
  refine ⟨R2, hruns2, halters2, fun id u hid hu => ?_⟩
  simp only [IR.definitions_append, List.mem_append, not_or] at huses
  obtain ⟨rfl, rfl⟩ | ⟨hne, hu⟩ := Scope.get?_put hu
  · have hused : ∀ r, v.Uses r → a.scope.Uses r := fun r hr => ⟨v, Scope.mem_of_get? hv, hr⟩
    -- no register that the branch finds the variable by was set
    have hv2 : k.stands id R2 v := k.congr (hstands id v hv) fun r hr => by
      have hr := hused r hr
      rw [halters2 r (huses r hr).2, hR1 r (.inl hr), halters r (huses r hr).1]
    rw [hsame.with_eq]
    refine ⟨?_, fun r hr => .inl (hused r hr)⟩
    rcases hcache : v.cache with _ | o
    · rw [hdirty hcache, ← hcache]
      exact k.unknown hv2 hcache
    have hsupplies : v.Supplies 0 [] o 0 := .known hcache
    obtain ⟨R3, -, halters3, ho⟩ := k.supplies hv2 hsupplies
    refine k.known hv2 hclean ?_
    rw [← ho, Registers.operand_congr fun r _ => halters3 r List.not_mem_nil]
  · exact hvars id u (by omega) hu

/-- One phi more, for a variable whose value is there at the end of the branch. -/
theorem phi (h : Carries a n s tail join) (hv : a.scope.get? n = some v) (hsame : own.Same v)
    (hclean : dirty = false → v.dirty = false) (hload : v.Supplies first load o last)
    (hfresh : ∀ r ∈ IR.definitions (tail ++ join), r ∉ IR.definitions load ∧ r ≠ register)
    (hsrc : sources.find? (fun source => some source.1 == some a.label) = some (a.label, o)) :
    Carries a (n + 1) (s.put n { own with cache := some (.register register), dirty }) (tail ++ load)
      (join ++ [.set register (.phi own.ty.irType sources)]) := by
  intro sites M k R hstands huses
  simp only [IR.definitions_append, IR.definitions_set, IR.definitions_nil, List.mem_append, List.mem_singleton, not_or]
    at huses hfresh ⊢
  obtain ⟨R', hruns, halters, hjoin⟩ := h k hstands fun r hr => by
    simp [*]
  have hused : ∀ r, v.Uses r → a.scope.Uses r := fun r hr => ⟨v, Scope.mem_of_get? hv, hr⟩
  -- the end of the branch leaves the value in an operand, and sets no register that is used before
  have hv' : k.stands n R' v := k.congr (hstands n v hv) fun r hr => halters r (huses r (hused r hr)).1.1
  obtain ⟨R'', hruns', halters', hvalue⟩ := k.supplies hv' hload
  refine ⟨R'', fun site hsite => (hruns site hsite).append (hruns' site hsite), halters.append halters',
    fun R1 hR1 => ?_⟩
  obtain ⟨R2, hruns2, halters2, hvars⟩ := hjoin R1 fun r hr => by
    rw [hR1 r (hr.imp_right .inl), halters' r]
    exact hr.elim (fun hr => (huses r hr).1.2) fun hr => (hfresh r (.inl hr)).1
  -- the phis before this one do not set the register that was loaded
  have hsupplied : R2.operand own.ty.irType o = .ok (k.handle n) := by
    rw [← hsame.ty, ← hvalue]
    refine Registers.operand_congr (fun r hr => ?_) _
    have hr := (hload.uses hr).imp_left (hused r)
    rw [halters2 r fun hmem => hr.elim (fun hr => (huses r hr).2.1 hmem) (hfresh r (.inr hmem)).1,
      hR1 r (hr.imp_right .inr)]
  have hset : Registers.Alters [register] R2 (R2.set register (k.handle n)) := .set R2 register _
  refine ⟨R2.set register (k.handle n), fun site hsite hprev => ?_, halters2.append hset, fun id u hid hu => ?_⟩
  · exact (hruns2 site hsite hprev).append (.phi hprev hsrc hsupplied)
  obtain ⟨rfl, rfl⟩ | ⟨hne, hu⟩ := Scope.get?_put hu
  · have hv2 : k.stands id (R2.set register (k.handle id)) v := k.congr (hstands id v hv) fun r hr => by
      have hr := hused r hr
      obtain ⟨⟨htail, hload⟩, hjoin, hne⟩ := huses r hr
      rw [hset r (by rwa [List.mem_singleton]), halters2 r hjoin, hR1 r (.inl hr), halters' r hload, halters r htail]
    rw [hsame.with_eq]
    refine ⟨k.known hv2 hclean (Registers.argument_set_self ..), fun r hr => ?_⟩
    obtain ⟨o, ho, hr⟩ | hr := hr
    · cases ho
      cases hr
      exact .inr (.inr rfl)
    · exact .inl (hused r (.inr hr))
  obtain ⟨hstands2, huses2⟩ := hvars id u (by omega) hu
  refine ⟨k.congr hstands2 fun r hr => hset r ?_, fun r hr => (huses2 r hr).imp_right .inl⟩
  grind

end Carries

/-! ### Values that branches agree on -/

/-- An operand that is no number, or one of certain numbers. -/
def IR.Operand.Admitted (numbers : Binary64 → Prop) : Operand → Prop
  | .float x => numbers x
  | _ => True

/-- What is known of a variable can be compared where branches meet: a number is one of certain numbers, and a variable
that has to be written back has a known value. -/
structure Variable.Admitted (numbers : Binary64 → Prop) (v : Variable) : Prop where
  value : ∀ value, v.cache = some value → value.Admitted numbers
  dirty : v.dirty = true → ∃ value, v.cache = some value

/-- What is known of the variables of a scope can be compared where branches meet. -/
def Scope.Admitted (numbers : Binary64 → Prop) (s : Scope) : Prop := ∀ v ∈ s.vars, v.Admitted numbers

variable {numbers : Binary64 → Prop}

theorem IR.Operand.eq_of_agrees (hnums : ∀ x y, numbers x → numbers y → x.equal y = true → x = y) {a b : Operand}
    (ha : a.Admitted numbers) (hb : b.Admitted numbers) (h : a.agrees b = true) : a = b := by
  cases a with
  | float x =>
    cases b with
    | float y => rw [hnums x y ha hb h]
    | _ => cases h
  | _ => simpa [Operand.agrees] using h

theorem cache_of_agree (hnums : ∀ x y, numbers x → numbers y → x.equal y = true → x = y)
    (hadmitted : ∀ v ∈ states, v.Admitted numbers) (hagree : cachesAgree states = true) (hv : v ∈ states) :
    states.head?.bind Variable.cache = v.cache ∧ (v.cache = none → states.any Variable.dirty = false) := by
  have hcaches : ∀ u ∈ states, states.head?.bind Variable.cache = u.cache := by
    intro u hu
    rcases states with _ | ⟨first, rest⟩
    · cases hu
    show first.cache = u.cache
    obtain ⟨hnone, hfirst⟩ | ⟨a, b, ha, hb, hab⟩ := cachesAgree_eq_true hagree hu
    · rw [hnone, hfirst]
    · have hfirst := hadmitted first (.head _)
      rw [ha, hb, IR.Operand.eq_of_agrees hnums ((hadmitted u hu).value a ha) (hfirst.value b hb) hab]
  refine ⟨hcaches v hv, fun hnone => List.any_eq_false.2 fun u hu hdirty => ?_⟩
  obtain ⟨value, hvalue⟩ := (hadmitted u hu).dirty hdirty
  grind

theorem clean_of_met {states : List Variable} (h : states.any Variable.dirty = false) (hv : v ∈ states) :
    v.dirty = false :=
  Bool.eq_false_iff.2 (List.any_eq_false.1 h v hv)

/-! ### All variables -/

theorem IR.mem_definitions_flatten {tails : List Code} (htail : tail ∈ tails) {id}
    (hid : id ∈ IR.definitions tail) : id ∈ IR.definitions tails.flatten := by
  obtain ⟨i, hi, hdefined⟩ := List.mem_filterMap.1 hid
  exact List.mem_filterMap.2 ⟨i, List.mem_flatten.2 ⟨tail, htail, hi⟩, hdefined⟩

namespace Meeting

variable {arrivals : List Arrival} {w0 w : Workspace} {n : Nat} {synced : Synced}

theorem locals (h : Meeting arrivals w0 n synced w) {tail : Code} (htail : tail ∈ synced.tails) :
    ∀ id ∈ IR.definitions (tail ++ synced.join), w0.fresh ≤ id ∧ id < w.fresh := by
  intro id hid
  refine h.draws.2.2 id ?_
  rw [IR.definitions_append, List.mem_append] at hid ⊢
  exact hid.imp_left (IR.mem_definitions_flatten htail)

theorem states_admitted (hadmitted : ∀ a ∈ arrivals, a.scope.Admitted numbers)
    (hstates : List.Forall₂ (fun a v => a.scope.get? n = some v) arrivals states) :
    ∀ v ∈ states, v.Admitted numbers := by
  intro v hv
  obtain ⟨a, ha, hget⟩ := exists_left hstates hv
  exact hadmitted a ha v (Scope.mem_of_get? hget)

/-- **Variables that were brought together** stand for what they stood for on the branch that was taken. -/
theorem carries (hnums : ∀ x y, numbers x → numbers y → x.equal y = true → x = y)
    (hadmitted : ∀ a ∈ arrivals, a.scope.Admitted numbers) (hlabels : (arrivals.map Arrival.label).Nodup)
    (hreach : ∀ a ∈ arrivals, w0.scope.Reaches a.scope) (h : Meeting arrivals w0 n synced w) :
    List.Forall₂ (fun a tail => Carries a n w.scope tail synced.join) arrivals synced.tails := by
  induction h with
  | start hn =>
    refine List.forall₂_map_right_iff.2 (List.forall₂_same.2 fun a ha => ?_)
    obtain rfl | rfl := hn
    · exact Carries.nil a _
    · cases ha
  | agreed h hown hstates hagree ih =>
    have hsame := h.states_same hreach hown hstates
    refine forall₂_imp_of_mem ih fun a ha tail _ hcarries => ?_
    obtain ⟨v, hv, hget, hsame⟩ := exists_right hsame ha
    obtain ⟨hcache, hdirty⟩ := cache_of_agree hnums (states_admitted hadmitted hstates) hagree hv
    rw [hcache]
    exact hcarries.agreed hget hsame (fun hclean => clean_of_met hclean hv) hdirty
  | @contested n synced w own states tails sources last h hown hstates hagree harrives ih =>
    have hsrcs : (sources.map Prod.fst).Nodup := by rw [harrives.labels]; exact hlabels
    have hsame := forall₂_imp_of_mem (h.states_same hreach hown hstates) fun a _ v hv hget => And.intro hv hget
    refine harrives.forall₂ ih hsame fun a v tail load o first' last' hcarries htail hv hsupplies hfirst _ hsrc => ?_
    refine hcarries.phi hv.2.1 hv.2.2 (fun hclean => clean_of_met hclean hv.1) hsupplies (fun other hother => ?_)
      (IR.Module.find?_key hsrcs hsrc)
    have hlt := (h.locals htail other hother).2
    refine ⟨fun hmem => ?_, fun hsame => ?_⟩
    · exact Nat.not_lt.2 (hfirst.trans (hsupplies.draws.2.2 other hmem).1) hlt
    · rw [hsame] at hlt
      exact Nat.not_lt.2 harrives.le hlt

end Meeting

end Lowering
