import Lowering.Machine.Run
import Lowering.Proofs.IR.Module
import Lowering.Proofs.Unit.Complete
/-!
# Which procedure a call reaches

A call is emitted with the name in code of the function that was chosen for it, and on the machine that name is all
there is to go by. The names of plain functions end in the place of the function, so no two of them are the same. A
function that is exported or provided from outside keeps its own name, which it may share with another one: then the
machine takes the first procedure, whichever function was chosen (`overloadsUnit_misses`). Where no such function shares
its name, the names of procedures differ, and a call reaches the function that was chosen.
-/

namespace Lowering

open IR (Procedure)

/-! ### Numerals -/

namespace Base36

def digitValue (c : Char) : Nat := if c.toNat < 'a'.toNat then c.toNat - '0'.toNat else c.toNat - 'a'.toNat + 10

/-- The number that digits are read as, behind those that were read as `n`. -/
def valueFrom (n : Nat) (cs : List Char) : Nat := cs.foldl (fun n c => n * 36 + digitValue c) n

variable {n : Nat}

theorem digitValue_digit (h : n < 36) : digitValue (digit n) = n ∧ digit n ≠ '.' := by
  revert n
  decide

theorem valueFrom_digitsAux (h : n < rounds) (rest : List Char) :
    valueFrom 0 (digitsAux rounds n rest) = valueFrom n rest := by
  induction rounds generalizing n rest with
  | zero => omega
  | succ rounds ih =>
    have hdigit := (digitValue_digit (Nat.mod_lt n (by decide : 0 < 36))).1
    have hstep : ∀ k, valueFrom k (digit (n % 36) :: rest) = valueFrom (k * 36 + n % 36) rest := by
      intro k
      rw [valueFrom, List.foldl_cons, hdigit]
      rfl
    rw [digitsAux]
    grind

theorem dot_notMem_digitsAux (rounds n : Nat) (h : '.' ∉ rest) : '.' ∉ digitsAux rounds n rest := by
  induction rounds generalizing n rest with
  | zero => exact h
  | succ rounds ih =>
    have hdigit := (digitValue_digit (Nat.mod_lt n (by decide : 0 < 36))).2
    grind [digitsAux]

theorem digits_injective (h : digits n = digits k) : n = k := by
  have hread : ∀ n, valueFrom 0 (digits n) = n := fun n => valueFrom_digitsAux (Nat.lt_succ_self n) []
  rw [← hread n, h, hread k]

end Base36

theorem eq_of_append_dot (hafter : '.' ∉ after) (hafter' : '.' ∉ after')
    (h : before ++ '.' :: after = before' ++ '.' :: after') : after = after' := by
  induction before generalizing before' with
  | nil =>
    cases before' with
    | nil => exact (List.cons.inj h).2
    | cons c before' =>
      simp_all
  | cons c before ih =>
    cases before' with
    | nil =>
      grind
    | cons => exact ih (List.cons.inj h).2

/-! ### Names in code -/

/-- A function that keeps its own name in code. -/
def Function.isBare (f : Function) : Bool := f.source.external || f.source.exported

/-- A function has the name in code that belongs to its place. -/
def Function.NamedAt (fileId place : Nat) (f : Function) : Prop :=
  f.represent = if f.isBare then f.name else s!"{f.name}.{Base36.numeral fileId}.{Base36.numeral place}"

variable {f : Function}

/-- Two plain functions of one name in code stand at the same place. -/
theorem Function.NamedAt.place_eq {g : Function} (hf : f.NamedAt fileId i) (hg : g.NamedAt fileId j)
    (hplain : f.isBare = false) (hplain' : g.isBare = false) (h : f.represent = g.represent) : i = j := by
  rw [hf, hg, hplain, hplain', if_neg (by simp)] at h
  have hdot : ".".toList = ['.'] := rfl
  have hchars := congrArg String.toList h
  simp only [toString, String.toList_append, Base36.numeral, String.toList_ofList, hdot] at hchars
  have hlast : f.name.toList ++ ['.'] ++ Base36.digits fileId ++ '.' :: Base36.digits i =
      g.name.toList ++ ['.'] ++ Base36.digits fileId ++ '.' :: Base36.digits j := by
    simp_all
  exact Base36.digits_injective (eq_of_append_dot (Base36.dot_notMem_digitsAux _ i List.not_mem_nil)
    (Base36.dot_notMem_digitsAux _ j List.not_mem_nil) hlast)

namespace Registry

/-- Every function has the name in code that belongs to its place. -/
def Named (r : Registry) : Prop := ∀ (i : Nat) (f : Function), r.functions[i]? = some f → f.NamedAt r.fileId i

variable {r : Registry}

theorem Named.declare (h : r.Named) (definition : FunctionDefinition) : (r.declare definition).Named := by
  intro i f hf
  unfold Registry.declare at hf ⊢
  rw [List.getElem?_append] at hf
  split at hf
  · exact h i f hf
  rw [List.getElem?_singleton] at hf
  split at hf
  · cases hf
    obtain rfl : i = r.functions.length := by omega
    rfl
  · cases hf

theorem foldl_declare_named (definitions : List FunctionDefinition) (h : r.Named) :
    (definitions.foldl Registry.declare r).Named ∧ (definitions.foldl Registry.declare r).fileId = r.fileId := by
  induction definitions generalizing r with
  | nil => exact ⟨h, rfl⟩
  | cons definition rest ih => exact ih (h.declare definition)

theorem Named.link (h : r.Named) (hr : r.Unlinked) (c : Catalog) (order : List String) : (r.link c order).1.Named := by
  intro i f hf
  have hkept := congrArg (·[i]?) (hr.link_kept c order)
  simp only [List.getElem?_map, hf, Option.map_some] at hkept
  obtain ⟨g, hg, hsame⟩ := Option.map_eq_some_iff.1 hkept.symm
  obtain ⟨hsrc, hrepresent⟩ := Prod.mk.inj hsame
  have hnamed := h i g hg
  unfold Function.NamedAt Function.isBare Function.name at hnamed ⊢
  rw [← hsrc, ← hrepresent]
  exact hnamed

end Registry

/-- The functions of a unit have the names that belong to their places. -/
theorem functionsOf_named (fileId : Nat) (u : SourceUnit) (hf : (functionsOf fileId u).functions[i]? = some f) :
    f.NamedAt fileId i := by
  obtain ⟨hnamed, hfile⟩ := Registry.foldl_declare_named u.functions (r := { fileId }) fun i f h => nomatch h
  have := hnamed.link (foldl_declare_unlinked _ _) (typesOf fileId u) [] i f hf
  rwa [show (Registry.link _ (typesOf fileId u) []).1.fileId = fileId from hfile] at this

/-- The functions of a unit are its definitions, in order. -/
theorem functionsOf_source (fileId : Nat) (u : SourceUnit) :
    (functionsOf fileId u).functions.map Function.source = u.functions :=
  ((foldl_declare_unlinked _ _).link_source _ _).trans (foldl_declare_source u.functions { fileId })

/-! ### Procedures and calls -/

/-- No function that keeps its name in code shares it with another one, of those that have a procedure. -/
def Registry.Clear (r : Registry) (procedureOf : Function → Option Procedure) : Prop :=
  ∀ (i j : Nat) (f g : Function), i ≠ j → r.functions[i]? = some f → r.functions[j]? = some g →
    (procedureOf f).isSome = true → (procedureOf g).isSome = true → f.isBare = true → f.represent ≠ g.represent

/-- The function that a lowered call calls. -/
def Lowered.callee? (l : Lowered) : Option String :=
  match l.output, l.code.getLast? with
  | .compound (.call _ callee _), _ => some callee
  | .bare _, some (.call _ callee _) => some callee
  | _, _ => none

/-- A call is emitted with the name in code of the function that was chosen for it. -/
theorem applyCall_callee {ctx name operands es span w w' l id}
    (hfind : ctx.registry.find name (operands.map Ready.ty) = some (.function id f))
    (h : applyCall ctx name operands es span w = .ok l w') : l.callee? = some f.represent := by
  have hcallee : Ensures (applyCall ctx name operands es span) w (fun l _ => l.callee? = some f.represent)
      fun _ _ => True := by
    unfold applyCall
    simp only [hfind]
    unfold callFunction
    split
    · exact Ensures.throw trivial
    · refine Ensures.bind (Ensures.mono (Q := fun _ _ => True) (E := fun _ _ => True) ?_ (fun a w _ _ => ?_)
        fun _ _ _ _ => trivial)
      · grind [Ensures]
      dsimp only
      split
      · refine Ensures.bind ?_
        change Lowered.callee? _ = some f.represent
        simp [Lowered.callee?]
      · exact Ensures.pure rfl
  exact hcallee.of_ok h

section Unit

variable {fileId : Nat} {options : Options} {u : SourceUnit}

theorem prototype_of_procedureOf (hf : f.Linked (typesOf fileId u) types)
    (hp : procedureOf (typesOf fileId u) (functionsOf fileId u) options f = some p) :
    (⟨p.name, p.parameters.map IR.Argument.ty, p.returnType⟩ : IR.Prototype) = f.prototype types := by
  have hyields := hf.yields options
  unfold procedureOf at hp
  split at hp
  · next procedure hproc =>
    subst hp
    rw [hproc] at hyields
    exact hyields.1
  · cases hp

theorem name_of_procedureOf (hf : f ∈ (functionsOf fileId u).functions) (hok : f.failed = false)
    (hp : procedureOf (typesOf fileId u) (functionsOf fileId u) options f = some p) : p.name = f.represent := by
  obtain ⟨types, htypes⟩ := functionsOf_sound fileId u f hf hok
  have hname := congrArg IR.Prototype.name (prototype_of_procedureOf htypes hp)
  rwa [f.prototype_name types] at hname

/-- **Which procedure a call reaches**, in a unit without errors. The names of procedures differ exactly if no function
that keeps its name shares it (`Registry.Clear`). Then a call that `applyCall` emits for a function `f`, chosen by
`Registry.find`, has the name by which `Module.procedure?` finds the procedure of `f`. -/
theorem call_reaches_chosen (herrors : (compileUnit fileId options u).2.hasErrors = false) {m : IR.Module}
    (hm : (compileUnit fileId options u).1 = .ok m) :
    ((m.procedures.map Procedure.name).Nodup ↔
      (functionsOf fileId u).Clear (procedureOf (typesOf fileId u) (functionsOf fileId u) options)) ∧
    ((functionsOf fileId u).Clear (procedureOf (typesOf fileId u) (functionsOf fileId u) options) →
      ∀ (ctx : Context) (name : String) (operands : List Ready) (es : List Expr) (span : Span) (w w' : Workspace)
        (l : Lowered) (id : Nat) (f : Function) (p : Procedure), ctx.registry = functionsOf fileId u →
        applyCall ctx name operands es span w = .ok l w' →
        ctx.registry.find name (operands.map Ready.ty) = some (.function id f) →
        procedureOf (typesOf fileId u) (functionsOf fileId u) options f = some p →
        l.callee?.bind m.procedure? = some p) := by
  obtain ⟨hmodule, hall⟩ := compileUnit_complete herrors
  cases hm.symm.trans hmodule
  have hname : ∀ f ∈ (functionsOf fileId u).functions, ∀ p,
      procedureOf (typesOf fileId u) (functionsOf fileId u) options f = some p → p.name = f.represent :=
    fun f hf p hp => name_of_procedureOf hf (hall f hf).1 hp
  have hdistinct : (((functionsOf fileId u).functions.filterMap
        (procedureOf (typesOf fileId u) (functionsOf fileId u) options)).map Procedure.name).Nodup ↔
      (functionsOf fileId u).Clear (procedureOf (typesOf fileId u) (functionsOf fileId u) options) := by
    rw [List.Nodup, List.pairwise_map, List.pairwise_filterMap, List.pairwise_iff_getElem]
    constructor
    · intro hpairs i j f g hij hi hj hf hg hbare
      obtain ⟨p, hp⟩ := Option.isSome_iff_exists.1 hf
      obtain ⟨q, hq⟩ := Option.isSome_iff_exists.1 hg
      rw [← hname f (List.mem_of_getElem? hi) p hp, ← hname g (List.mem_of_getElem? hj) q hq]
      obtain ⟨hilt, rfl⟩ := List.getElem?_eq_some_iff.1 hi
      obtain ⟨hjlt, rfl⟩ := List.getElem?_eq_some_iff.1 hj
      rcases Nat.lt_or_gt_of_ne hij with hlt | hlt
      · exact hpairs i j hilt hjlt hlt p hp q hq
      · exact (hpairs j i hjlt hilt hlt q hq p hp).symm
    · intro hclear i j hi hj hlt p hp q hq
      rw [hname _ (List.getElem_mem hi) p hp, hname _ (List.getElem_mem hj) q hq]
      have hfirst := List.getElem?_eq_getElem hi
      have hsecond := List.getElem?_eq_getElem hj
      have hsome := Option.isSome_of_eq_some hp
      have hsome' := Option.isSome_of_eq_some hq
      cases hbare : ((functionsOf fileId u).functions[i]).isBare with
      | true => exact hclear i j _ _ (Nat.ne_of_lt hlt) hfirst hsecond hsome hsome' hbare
      | false =>
        cases hbare' : ((functionsOf fileId u).functions[j]).isBare with
        | true => exact (hclear j i _ _ (Nat.ne_of_gt hlt) hsecond hfirst hsome' hsome hbare').symm
        | false =>
          -- plain functions are told apart by their places
          intro hsame
          exact Nat.ne_of_lt hlt ((functionsOf_named fileId u hfirst).place_eq (functionsOf_named fileId u hsecond)
            hbare hbare' hsame)
  refine ⟨hdistinct, ?_⟩
  intro hclear ctx name operands es span w w' l id f p hregistry hcall hfind hp
  rw [applyCall_callee hfind hcall, Option.bind_some]
  rw [hregistry] at hfind
  obtain ⟨_, _, hcallee, hf, -⟩ | ⟨_, _, hcallee, -⟩ := Registry.find_cases hfind
  · cases hcallee
    have hmem := List.mem_of_getElem? hf
    rw [← hname f hmem p hp]
    exact IR.Module.procedure?_of_mem (hdistinct.2 hclear) (List.mem_filterMap.2 ⟨f, hmem, hp⟩)
  · cases hcallee

end Unit

/-- A function that returns a number. -/
def constantFunction (name : String) (parameters : List (String × String)) (exported : Bool) (result : Expr) :
    FunctionDefinition where
  name := name
  parameters := parameters.map fun (name, ty) => ⟨name, ty, {}⟩
  returnType := "i32"
  body := some ⟨[.ret (some result) {}], {}⟩
  exported := exported

/-- Two functions of one name, for a number and for a truth value, and one that calls the second. -/
def overloadsUnit (exported : Bool) : SourceUnit where
  functions := [
    constantFunction "pick" [("x", "i32")] exported (.constant ⟨.integer 1, {}⟩),
    constantFunction "pick" [("x", "bool")] exported (.constant ⟨.integer 2, {}⟩),
    constantFunction "main" [] true (.call ⟨"pick", [.constant ⟨.boolean true, {}⟩], {}⟩)]

/-- Where the two functions are plain, their procedures have names of their own, and a call with a truth value is
emitted with the name of the second one. -/
theorem call_reaches_chosen_overloadsUnit :
    ∃ m, (compileUnit 0 {} (overloadsUnit false)).2.hasErrors = false ∧
      (compileUnit 0 {} (overloadsUnit false)).1 = .ok m ∧ (m.procedures.map Procedure.name).Nodup ∧
      (functionsOf 0 (overloadsUnit false)).Clear
        (procedureOf (typesOf 0 (overloadsUnit false)) (functionsOf 0 (overloadsUnit false)) {}) ∧
      ∃ ctx operand w w' l f p, ctx.registry = functionsOf 0 (overloadsUnit false) ∧
        applyCall ctx "pick" [operand] [] {} w = .ok l w' ∧
        ctx.registry.find "pick" [operand.ty] = some (.function 1 f) ∧
        procedureOf (typesOf 0 (overloadsUnit false)) (functionsOf 0 (overloadsUnit false)) {} f = some p ∧
        l.callee?.bind m.procedure? = some p := by
  have herrors : (compileUnit 0 {} (overloadsUnit false)).2.hasErrors = false := by decide +kernel
  obtain ⟨m, hm, hnames⟩ : ∃ m, (compileUnit 0 {} (overloadsUnit false)).1 = .ok m ∧
      (m.procedures.map Procedure.name).Nodup := by decide +kernel
  obtain ⟨hiff, hreaches⟩ := call_reaches_chosen herrors hm
  have hclear := hiff.1 hnames
  let ctx : Context := ⟨typesOf 0 (overloadsUnit false), functionsOf 0 (overloadsUnit false), .primitive .i32, none⟩
  let operand : Ready := ⟨[], ⟨.bool, .bool true⟩, .primitive .bool, .temporary, []⟩
  have hcall : ∃ l w' f p, applyCall ctx "pick" [operand] [] {} { scope := { caching := true } } = .ok l w' ∧
      ctx.registry.find "pick" [operand.ty] = some (.function 1 f) ∧
      procedureOf ctx.catalog ctx.registry {} f = some p := ⟨_, _, _, _, rfl, rfl, rfl⟩
  obtain ⟨l, w', f, p, hcall, hfind, hp⟩ := hcall
  exact ⟨m, herrors, hm, hnames, hclear, ctx, operand, _, w', l, f, p, rfl, hcall, hfind, hp,
    hreaches hclear ctx "pick" [operand] [] {} _ w' l 1 f p rfl hcall hfind hp⟩

/-- Where they are exported, a call of the second one reaches the first. -/
theorem overloadsUnit_misses :
    ∃ m f p, (compileUnit 0 {} (overloadsUnit true)).2.hasErrors = false ∧
      (compileUnit 0 {} (overloadsUnit true)).1 = .ok m ∧
      (functionsOf 0 (overloadsUnit true)).find "pick" [.primitive .bool] = some (.function 1 f) ∧
      procedureOf (typesOf 0 (overloadsUnit true)) (functionsOf 0 (overloadsUnit true)) {} f = some p ∧
      p ∈ m.procedures ∧ m.procedure? f.represent ≠ some p ∧ runFresh m "main" [] = .ok (some (.int 1)) := by
  have herrors : (compileUnit 0 {} (overloadsUnit true)).2.hasErrors = false := by decide +kernel
  obtain ⟨m, hm, -⟩ := compileUnit_emits 0 {} (overloadsUnit true)
  have hfind : ∃ f, (functionsOf 0 (overloadsUnit true)).find "pick" [.primitive .bool] = some (.function 1 f) ∧
      (functionsOf 0 (overloadsUnit true)).functions[1]? = some f := ⟨_, rfl, rfl⟩
  obtain ⟨f, hfind, hf⟩ := hfind
  have hcheck : ((compileUnit 0 {} (overloadsUnit true)).1.toOption.any fun m =>
      (functionsOf 0 (overloadsUnit true)).functions[1]?.any fun f =>
        (procedureOf (typesOf 0 (overloadsUnit true)) (functionsOf 0 (overloadsUnit true)) {} f).any fun p =>
          decide (p ∈ m.procedures ∧ m.procedure? f.represent ≠ some p ∧
            runFresh m "main" [] = .ok (some (.int 1)))) = true := by decide +kernel
  simp only [hm, hf, Except.toOption, Option.any_some] at hcheck
  obtain ⟨p, hp, hmisses⟩ := (Option.any_eq_true _ _).1 hcheck
  exact ⟨m, f, p, herrors, hm, hfind, hp, of_decide_eq_true hmisses⟩

end Lowering
