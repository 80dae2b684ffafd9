import Lowering.IR.Flatten
import Lowering.Proofs.Except
import Lowering.Proofs.IR.Laid
/-!
# New numbers for locals

Renaming the locals of code keeps everything that was said about it: the types of its values, and that it is structured
(`Laid.rename`). Flattening renames each local to its place in the order of definition, and comes to a result because
structured code mentions no local that is not defined (`Laid.mentions`).
-/

namespace Lowering.IR

open List

/-! ### Renaming -/

def Operand.rename (ρ : Local → Local) : Operand → Operand
  | .register id => .register (ρ id)
  | other => other

/-- A typed operand with other locals. -/
def Argument.rename (ρ : Local → Local) (a : Argument) : Argument := ⟨a.ty, a.value.rename ρ⟩

def Value.rename (ρ : Local → Local) : Value → Value
  | .alloc ty => .alloc ty
  | .load ty address => .load ty (address.rename ρ)
  | .elementPointer pointee base indices result =>
    .elementPointer pointee (base.rename ρ) (indices.map (·.rename ρ)) result
  | .binary operator mode ty lhs rhs => .binary operator mode ty (lhs.rename ρ) (rhs.rename ρ)
  | .compare predicate ty lhs rhs => .compare predicate ty (lhs.rename ρ) (rhs.rename ρ)
  | .bitcast value target => .bitcast (value.rename ρ) target
  | .convert conversion value target => .convert conversion (value.rename ρ) target
  | .sizeOf ty => .sizeOf ty
  | .call returnType callee arguments => .call returnType callee (arguments.map (·.rename ρ))
  | .phi ty sources => .phi ty (sources.map fun s => (ρ s.1, s.2.rename ρ))

def Instruction.rename (ρ : Local → Local) : Instruction → Instruction
  | .label id => .label (ρ id)
  | .set destination value => .set (ρ destination) (value.rename ρ)
  | .store address value => .store (address.rename ρ) (value.rename ρ)
  | .call returnType callee arguments => .call returnType callee (arguments.map (·.rename ρ))
  | .branch condition positive negative => .branch (condition.rename ρ) (ρ positive) (ρ negative)
  | .jump target => .jump (ρ target)
  | .ret value => .ret (value.map (·.rename ρ))

def Code.rename (ρ : Local → Local) (code : Code) : Code := code.map (·.rename ρ)

/-- Registers with other numbers. -/
def Typing.rename (ρ : Local → Local) (Γ : Typing) : Typing := Γ.map fun x => (ρ x.1, x.2)

def Point.rename (ρ : Local → Local) (p : Point) : Point := ⟨ρ p.label, p.known.rename ρ⟩

def Station.rename (ρ : Local → Local) (s : Station) : Station :=
  ⟨ρ s.label, s.entry.rename ρ, s.arrivals.map (·.rename ρ)⟩

variable {ρ : Local → Local}

@[simp] theorem Code.rename_append (code more : Code) :
    Code.rename ρ (code ++ more) = code.rename ρ ++ more.rename ρ := map_append

@[simp] theorem Code.rename_cons (i : Instruction) (rest : Code) :
    Code.rename ρ (i :: rest) = i.rename ρ :: Code.rename ρ rest := rfl

@[simp] theorem Operand.rename_id (o : Operand) : o.rename id = o := by
  cases o <;> rfl

@[simp] theorem Argument.rename_id (a : Argument) : a.rename id = a := by
  simp [Argument.rename]

@[simp] theorem Value.rename_id (value : Value) : value.rename id = value := by
  cases value <;> simp [Value.rename]

@[simp] theorem Instruction.rename_id (i : Instruction) : i.rename id = i := by
  cases i <;> simp [Instruction.rename]

theorem Code.rename_id (code : Code) : code.rename id = code := by
  simp [Code.rename]

@[simp] theorem Value.resultType_rename (value : Value) : (value.rename ρ).resultType = value.resultType := by
  cases value <;> rfl

@[simp] theorem Instruction.isTerminator_rename (i : Instruction) : (i.rename ρ).isTerminator = i.isTerminator := by
  cases i <;> rfl

@[simp] theorem definitions_rename (code : Code) : definitions (code.rename ρ) = (definitions code).map ρ := by
  simp only [definitions, Code.rename, filterMap_map, map_filterMap]
  refine filterMap_congr fun i _ => ?_
  cases i <;> rfl

@[simp] theorem Value.isRaw_rename (value : Value) : (value.rename ρ).isRaw = value.isRaw := by
  cases value <;> rfl

@[simp] theorem kept_rename (code : Code) : kept (code.rename ρ) = Typing.rename ρ (kept code) := by
  simp only [kept, Code.rename, Typing.rename, filterMap_map, map_filterMap]
  refine filterMap_congr fun i _ => ?_
  cases i with
  | set destination value =>
    simp only [Function.comp, Instruction.rename, Value.isRaw_rename, Value.resultType_rename]
    split <;> rfl
  | _ => rfl

theorem Typing.rename_past (Γ : Typing) (code : Code) :
    (Γ.past code).rename ρ = (Γ.rename ρ).past (code.rename ρ) := by
  simp [Typing.past, Typing.rename]

theorem Typing.mem_rename {Γ : Typing} (h : x ∈ Γ) : (ρ x.1, x.2) ∈ Γ.rename ρ :=
  mem_map.2 ⟨x, h, rfl⟩

theorem Typing.rename_mono {Γ Δ : Typing} (h : Γ ⊆ Δ) : Γ.rename ρ ⊆ Δ.rename ρ := map_subset _ h

/-! ### What stays true -/

variable {env : Setting} {Γ : Typing} {ty returnType : Ty} {arrivals : List Point} {join : Local} {exit : Option Point}
  {stations : List Station} {numbering : Numbering}

theorem Operand.Fits.rename {o : Operand} (h : o.Fits Γ ty) : (o.rename ρ).Fits (Γ.rename ρ) ty := by
  cases o with
  | register => exact Typing.mem_rename h
  | _ => exact h

theorem Argument.Fits.rename {a : Argument} (h : a.Fits Γ) : (a.rename ρ).Fits (Γ.rename ρ) := Operand.Fits.rename h

theorem CallTyped.rename (h : CallTyped env Γ returnType callee arguments) :
    CallTyped env (Γ.rename ρ) returnType callee (arguments.map (·.rename ρ)) := by
  refine ⟨fun a ha => ?_, ?_⟩
  · obtain ⟨b, hb, rfl⟩ := mem_map.1 ha
    exact (h.1 b hb).rename
  · rw [map_map]
    exact h.2

theorem Value.Typed.rename {value : Value} (h : value.Typed env Γ) : (value.rename ρ).Typed env (Γ.rename ρ) := by
  cases value with
  | alloc => trivial
  | load => exact ⟨h.1.rename, h.2⟩
  | elementPointer pointee base indices result =>
    obtain ⟨hbase, hpointee, name, index, field, hname, rfl, hselects, hres⟩ := h
    exact ⟨hbase.rename, hpointee, name, index, field, hname, rfl, hselects, hres⟩
  | binary | compare => exact ⟨h.1.rename, h.2.rename⟩
  | bitcast | convert => exact Argument.Fits.rename h
  | sizeOf => trivial
  | call => exact CallTyped.rename h
  | phi => exact h

theorem Value.feasible_rename (value : Value) : (value.rename ρ).Feasible env ↔ value.Feasible env := by
  cases value <;> exact Iff.rfl

theorem Argument.isStorable_rename (value : Argument) : (value.rename ρ).IsStorable ↔ value.IsStorable := by
  refine or_congr Iff.rfl ?_
  obtain ⟨ty, operand⟩ := value
  cases operand <;> simp [Argument.rename, Operand.rename]

theorem Instruction.Simple.rename {i : Instruction} (h : i.Simple env Γ) : (i.rename ρ).Simple env (Γ.rename ρ) := by
  cases i with
  | set destination value => exact ⟨h.1.rename, (Value.feasible_rename value).2 h.2⟩
  | store address value =>
    exact ⟨⟨h.1.1.rename, h.1.2.1.rename, h.1.2.2⟩, (Argument.isStorable_rename value).2 h.2⟩
  | call => exact ⟨h.1.rename, h.2⟩
  | label | branch | jump | ret => exact h

theorem CopyTyped.rename (h : CopyTyped env Γ name source destination) :
    CopyTyped env (Γ.rename ρ) name (source.rename ρ) (destination.rename ρ) :=
  ⟨h.sourceFits.rename, h.sourceType, h.destinationFits.rename, h.destinationType, h.declared, h.memcpy⟩

theorem Straight.rename (h : Straight env Γ code) : Straight env (Γ.rename ρ) (code.rename ρ) := by
  induction h with
  | nil => exact .nil _
  | cons hi _ ih =>
    rw [Typing.rename_past] at ih
    exact .cons hi.rename ih
  | copy hcopy _ ih =>
    exact .copy hcopy.rename ih

theorem SourcesFit.rename (h : SourcesFit arrivals ty sources) :
    SourcesFit (arrivals.map (·.rename ρ)) ty (sources.map fun s => (ρ s.1, s.2.rename ρ)) := by
  refine forall₂_map_left_iff.2 (forall₂_map_right_iff.2 (h.imp fun s a hs => ?_))
  exact ⟨congrArg ρ hs.1, hs.2.rename⟩

theorem PhiFits.rename (h : PhiFits arrivals i) : PhiFits (arrivals.map (·.rename ρ)) (i.rename ρ) := by
  obtain ⟨destination, ty, sources, rfl, hsrcs, hscalar, hsome⟩ := h
  exact ⟨_, _, _, rfl, hsrcs.rename, hscalar, by simpa using hsome⟩

theorem ReturnTyped.rename (h : ReturnTyped Γ returnType value) :
    ReturnTyped (Γ.rename ρ) returnType (value.map (·.rename ρ)) := by
  cases value with
  | none => exact h
  | some => exact ⟨h.1.rename, h.2⟩

theorem ConditionTyped.rename (h : ConditionTyped Γ condition) :
    ConditionTyped (Γ.rename ρ) (condition.rename ρ) :=
  ⟨h.1.rename, h.2⟩

theorem toList_rename (exit : Option Point) : exit.toList.map (·.rename ρ) = (exit.map (·.rename ρ)).toList := by
  cases exit <;> rfl

theorem closing_rename (join : Local) (exit : Option Point) :
    (closing join exit).rename ρ = closing (ρ join) (exit.map (·.rename ρ)) := by
  cases exit <;> rfl

theorem Meets.rename {code : Code} (h : Meets arrivals join code exit stations) :
    Meets (arrivals.map (·.rename ρ)) (ρ join) (code.rename ρ) (exit.map (·.rename ρ)) (stations.map (·.rename ρ)) := by
  rcases h with hnone | ⟨entry, phis, hsome, hentry, hphis⟩
  · rw [hnone]
    exact .nowhere rfl
  have h : Meets (arrivals.map (·.rename ρ)) (ρ join) _ _ _ :=
    .somewhere (entry.rename ρ) (phis.rename ρ) (by simpa using hsome) (fun a ha => ?_) (fun i hi => ?_)
  · rw [← Typing.rename_past] at h
    exact h
  · obtain ⟨b, hb, rfl⟩ := mem_map.1 ha
    exact Typing.rename_mono (hentry b hb)
  · obtain ⟨j, hj, rfl⟩ := mem_map.1 hi
    exact (hphis j hj).rename

/-- **Structured code stays structured** when its locals are renamed. -/
theorem Laid.rename (h : Laid env returnType p code exit stations) :
    Laid env returnType (p.rename ρ) (code.rename ρ) (exit.map (·.rename ρ)) (stations.map (·.rename ρ)) := by
  induction h with
  | straight p h =>
    have hrenamed : Laid env returnType (p.rename ρ) _ _ _ := .straight _ h.rename
    simp_all [Point.rename, ← Typing.rename_past]
  | ret p h =>
    exact Laid.ret (p.rename ρ) h.rename
  | seq _ _ ih ihmore =>
    rw [Code.rename_append, map_append]
    exact ih.seq ihmore
  | @one p _ _ join _ _ _ _ _ _ _ hcond hentry _ hmeets ih =>
    have hmeets : Meets _ (ρ join) _ _ _ := hmeets.rename
    rw [map_cons, toList_rename] at hmeets
    have hone : Laid env returnType (p.rename ρ) _ _ _ := .one hcond.rename (Typing.rename_mono hentry) ih hmeets
    simp only [Code.rename_append, closing_rename, map_append]
    exact hone
  | @two p _ _ _ join _ _ _ _ _ _ _ _ _ _ _ hcond hentry hentry' _ _ hmeets ih ih' =>
    have hmeets : Meets _ (ρ join) _ _ _ := hmeets.rename
    rw [map_append, toList_rename, toList_rename] at hmeets
    have htwo : Laid env returnType (p.rename ρ) _ _ _ :=
      .two hcond.rename (Typing.rename_mono hentry) (Typing.rename_mono hentry') ih ih' hmeets
    simp only [Code.rename_append, closing_rename, map_append]
    exact htwo

/-! ### Locals that are mentioned -/

def Operand.mentions (o : Operand) : List Local := o.register?.toList

def Argument.mentions (a : Argument) : List Local := a.value.mentions

/-- The locals that a value mentions: registers, and the labels of a phi. -/
def Value.mentions : Value → List Local
  | .alloc _ => []
  | .load _ address => address.mentions
  | .elementPointer _ base indices _ => base.mentions ++ indices.flatMap Argument.mentions
  | .binary _ _ _ lhs rhs => lhs.mentions ++ rhs.mentions
  | .compare _ _ lhs rhs => lhs.mentions ++ rhs.mentions
  | .bitcast value _ => value.mentions
  | .convert _ value _ => value.mentions
  | .sizeOf _ => []
  | .call _ _ arguments => arguments.flatMap Argument.mentions
  | .phi _ sources => sources.flatMap fun s => s.1 :: s.2.mentions

/-- The locals that an instruction mentions, besides the one it defines. -/
def Instruction.mentions : Instruction → List Local
  | .label _ => []
  | .set _ value => value.mentions
  | .store address value => address.mentions ++ value.mentions
  | .call _ _ arguments => arguments.flatMap Argument.mentions
  | .branch condition positive negative => condition.mentions ++ [positive, negative]
  | .jump target => [target]
  | .ret value => value.toList.flatMap Argument.mentions

/-! ### Numbers that are places -/

namespace Numbering

variable {numbering : Numbering} {code : Code} {i : Instruction} {α β : Type} {ids ids' : List Local}
  {x : Except Malformation α} {a a' : α}

/-- The new number of a local. -/
def place (numbering : Numbering) (id : Local) : Local := numbering.idxOf id

theorem place_inj {a b} (ha : a ∈ numbering) (h : numbering.place a = numbering.place b) : a = b :=
  (idxOf_inj ha).1 h

theorem map_place (h : numbering.Nodup) : numbering.map numbering.place = List.range numbering.length := by
  refine ext_getElem (by simp) fun n hn hn' => ?_
  rw [getElem_map, getElem_range, place, h.idxOf_getElem]

theorem repeated?_eq_none_iff : repeated? [] ids = none ↔ ids.Nodup := by
  -- What was seen has no repetitions itself.
  have hseen : ∀ {ids seen : List Local}, seen.Nodup → (repeated? seen ids = none ↔ (seen ++ ids).Nodup) := by
    intro ids
    induction ids with
    | nil => simp [repeated?]
    | cons id rest ih =>
      intro seen hseen
      rw [repeated?]
      split
      · next hold =>
        have hid : id ∈ seen := by simpa using hold
        exact ⟨fun h => absurd h (by simp), fun h => absurd rfl ((nodup_append.1 h).2.2 id hid id (.head _))⟩
      · next hnew => rw [ih (nodup_cons.2 ⟨by simpa using hnew, hseen⟩), perm_middle.nodup_iff, cons_append]
  exact hseen nodup_nil

/-- A step that comes to a result if these locals have a number, and to none otherwise. -/
structure Gives (numbering : Numbering) (ids : List Local) (x : Except Malformation α) (a : α) : Prop where
  ok : (∀ id ∈ ids, id ∈ numbering) → x = .ok a
  inv : ∀ {a'}, x = .ok a' → ∀ id ∈ ids, id ∈ numbering

theorem Gives.eq (h : numbering.Gives ids x a) (hx : x = .ok a') : a' = a :=
  Except.ok.inj (hx.symm.trans (h.ok (h.inv hx)))

theorem Gives.pure (a : α) : numbering.Gives [] (.ok a) a := ⟨fun _ => rfl, fun _ _ h => absurd h not_mem_nil⟩

theorem Gives.bind {b : β} (h : numbering.Gives ids x a) (hf : numbering.Gives ids' (f a) b) :
    numbering.Gives (ids ++ ids') (x >>= f) b where
  ok hids := by
    obtain ⟨hids, hids'⟩ := forall_mem_append.1 hids
    rw [h.ok hids]
    exact hf.ok hids'
  inv hb := by
    obtain ⟨a', ha, hb⟩ := bind_eq_ok hb
    cases h.eq ha
    exact forall_mem_append.2 ⟨h.inv ha, hf.inv hb⟩

theorem Gives.map (h : numbering.Gives ids x a) (f : α → β) : numbering.Gives ids (f <$> x) (f a) := by
  have hmap : numbering.Gives (ids ++ []) (f <$> x) (f a) := h.bind (f := fun a => .ok (f a)) (.pure _)
  rwa [append_nil] at hmap

theorem Gives.mapM {ids f} {g : α → β}
    (h : ∀ a, numbering.Gives (ids a) (f a) (g a)) (as : List α) :
    numbering.Gives (as.flatMap ids) (as.mapM f) (as.map g) := by
  induction as with
  | nil => exact .pure _
  | cons a as ih =>
    rw [mapM_cons]
    exact (h a).bind (ih.map _)

theorem gives_renumber (id : Local) : numbering.Gives [id] (numbering.renumber id) (numbering.place id) := by
  rcases hid : numbering.idxOf? id with _ | index
  · have hnew : id ∉ numbering := List.idxOf?_eq_none_iff.1 hid
    exact ⟨fun h => absurd (h id (.head _)) hnew, fun h => by rw [renumber, hid] at h; cases h⟩
  have hold : id ∈ numbering := by
    by_contra hnew
    rw [List.idxOf?_eq_none_iff.2 hnew] at hid
    cases hid
  refine ⟨fun _ => ?_, fun _ => forall_mem_singleton.2 hold⟩
  rw [renumber, place, idxOf_eq_getD_idxOf?, hid]
  rfl

theorem gives_operand (o : Operand) : numbering.Gives o.mentions (numbering.operand o) (o.rename numbering.place) := by
  cases o with
  | register id => exact (gives_renumber id).map _
  | _ => exact .pure _

theorem gives_argument (a : Argument) : numbering.Gives a.mentions (numbering.argument a) (a.rename numbering.place) :=
  (gives_operand a.value).map _

theorem gives_source (s : Local × Operand) :
    numbering.Gives (s.1 :: s.2.mentions) (numbering.source s) (numbering.place s.1, s.2.rename numbering.place) :=
  (gives_renumber s.1).bind ((gives_operand s.2).map _)

theorem gives_value (v : Value) : numbering.Gives v.mentions (numbering.value v) (v.rename numbering.place) := by
  cases v with
  | alloc => exact .pure _
  | load ty address => exact (gives_argument address).map _
  | elementPointer pointee base indices result =>
    exact (gives_argument base).bind ((Gives.mapM gives_argument indices).map _)
  | binary operator mode ty lhs rhs | compare predicate ty lhs rhs =>
    exact (gives_operand lhs).bind ((gives_operand rhs).map _)
  | bitcast v | convert conversion v => exact (gives_argument v).map _
  | sizeOf => exact .pure _
  | call returnType callee arguments => exact (Gives.mapM gives_argument arguments).map _
  | phi ty sources => exact (Gives.mapM gives_source sources).map _

/-- **An instruction gets new numbers** if and only if every local in it has one, and then each becomes its place. -/
theorem gives_instruction (i : Instruction) :
    numbering.Gives (i.defined?.toList ++ i.mentions) (numbering.instruction i) (i.rename numbering.place) := by
  rcases i with id | ⟨destination, v⟩ | ⟨address, v⟩ | ⟨returnType, callee, arguments⟩ |
    ⟨condition, positive, negative⟩ | target | v
  · exact (gives_renumber id).map _
  · exact (gives_renumber destination).bind ((gives_value v).map _)
  · exact (gives_argument address).bind ((gives_argument v).map _)
  · exact (Gives.mapM gives_argument arguments).map _
  · exact (gives_argument condition).bind ((gives_renumber positive).bind ((gives_renumber negative).map _))
  · exact (gives_renumber target).map _
  cases v with
  | none => exact .pure _
  | some v => exact (gives_argument v).bind (.pure _)

/-- Every instruction of some code can be renumbered. -/
def Renumbers (numbering : Numbering) (code : Code) : Prop :=
  ∀ i ∈ code, numbering.instruction i = .ok (i.rename numbering.place)

theorem renumbers_iff : numbering.Renumbers code ↔ ∀ i ∈ code, ∀ id ∈ i.defined?.toList ++ i.mentions, id ∈ numbering :=
  forall₂_congr fun i _ => ⟨(gives_instruction i).inv, (gives_instruction i).ok⟩

/-- **Code can be renumbered** by its own numbering if and only if it mentions no local that is not defined. -/
theorem renumbers_collect_iff :
    (collect parameters body).Renumbers body ↔ ∀ i ∈ body, ∀ id ∈ i.mentions, id ∈ collect parameters body := by
  refine renumbers_iff.trans (forall₂_congr fun i hi => forall_mem_append.trans (and_iff_right fun id hid => ?_))
  exact mem_append_right _ (mem_filterMap.2 ⟨i, hi, Option.mem_toList.1 hid⟩)

theorem arguments_collect (parameters : List Argument) (body : Code) :
    parameters.mapM (collect parameters body).argument =
      .ok (parameters.map (·.rename (collect parameters body).place)) := by
  refine (Gives.mapM gives_argument parameters).ok fun id hid => ?_
  obtain ⟨a, ha, hid⟩ := mem_flatMap.1 hid
  exact mem_append_left _ (mem_filterMap.2 ⟨a, ha, Option.mem_toList.1 hid⟩)

end Numbering

/-! ### Structured code mentions what is defined -/

/-- Every register has a number. -/
def Numbering.Covers (numbering : Numbering) (Γ : Typing) : Prop := ∀ x ∈ Γ, x.1 ∈ numbering

/-- A point whose locals all have a number. -/
structure Numbering.Holds (numbering : Numbering) (p : Point) : Prop where
  label : p.label ∈ numbering
  known : numbering.Covers p.known

section Mentions

variable {id : Local} {code : Code} {i : Instruction} (hΓ : numbering.Covers Γ)
include hΓ

theorem Numbering.Covers.past (hcode : ∀ id ∈ definitions code, id ∈ numbering) : numbering.Covers (Γ.past code) := by
  intro x hx
  obtain hx | hx := Typing.mem_past.1 hx
  · exact hcode x.1 (mem_definitions_of_mem_kept hx)
  · exact hΓ x hx

theorem Operand.Fits.mentions {o : Operand} (h : o.Fits Γ ty) : ∀ id ∈ o.mentions, id ∈ numbering := by
  cases o with
  | register => exact forall_mem_singleton.2 (hΓ _ h)
  | _ => exact forall_mem_nil _

theorem Argument.Fits.mentions {a : Argument} (h : a.Fits Γ) : ∀ id ∈ a.mentions, id ∈ numbering :=
  Operand.Fits.mentions hΓ h

theorem CallTyped.mentions (h : CallTyped env Γ returnType callee arguments) :
    ∀ id ∈ arguments.flatMap Argument.mentions, id ∈ numbering :=
  forall_mem_flatMap.2 fun a ha => (h.1 a ha).mentions hΓ

theorem Value.Typed.mentions {v : Value} (h : v.Typed env Γ) : ∀ id ∈ v.mentions, id ∈ numbering := by
  cases v with
  | load => exact h.1.mentions hΓ
  | elementPointer pointee base indices result =>
    obtain ⟨hbase, -, name, index, field, -, rfl, -, -⟩ := h
    exact forall_mem_append.2 ⟨hbase.mentions hΓ, forall_mem_nil _⟩
  | binary | compare => exact forall_mem_append.2 ⟨h.1.mentions hΓ, h.2.mentions hΓ⟩
  | bitcast | convert => exact Argument.Fits.mentions hΓ h
  | call => exact CallTyped.mentions hΓ h
  | phi => exact h.elim
  | _ => exact forall_mem_nil _

theorem Instruction.Simple.mentions (h : i.Simple env Γ) : ∀ id ∈ i.mentions, id ∈ numbering := by
  cases i with
  | set => exact h.1.mentions hΓ
  | store => exact forall_mem_append.2 ⟨h.1.1.mentions hΓ, h.1.2.1.mentions hΓ⟩
  | call => exact h.1.mentions hΓ
  | _ => exact h.elim

end Mentions

theorem Straight.mentions (hΓ : numbering.Covers Γ) (h : Straight env Γ code)
    (hcode : ∀ id ∈ definitions code, id ∈ numbering) : ∀ i ∈ code, ∀ id ∈ i.mentions, id ∈ numbering := by
  induction h with
  | nil => exact forall_mem_nil _
  | @cons Γ i rest hi _ ih =>
    rw [← singleton_append, definitions_append] at hcode
    obtain ⟨hfirst, hrest⟩ := forall_mem_append.1 hcode
    exact forall_mem_cons.2 ⟨hi.mentions hΓ, ih (hΓ.past hfirst) hrest⟩
  | @copy Γ name size start target source destination rest hcopy _ ih =>
    obtain ⟨hsize, hcode⟩ := forall_mem_cons.1 hcode
    obtain ⟨hstart, hcode⟩ := forall_mem_cons.1 hcode
    obtain ⟨htgt, hcode⟩ := forall_mem_cons.1 hcode
    have hcall : ∀ id ∈ (copyCall size start target).mentions, id ∈ numbering :=
      forall_mem_cons.2 ⟨htgt, forall_mem_cons.2 ⟨hstart, forall_mem_singleton.2 hsize⟩⟩
    have hrest := ih (forall_mem_cons.2 ⟨hsize, hΓ⟩) hcode
    exact forall_mem_cons.2 ⟨forall_mem_nil _, forall_mem_cons.2 ⟨hcopy.sourceFits.mentions hΓ,
      forall_mem_cons.2 ⟨hcopy.destinationFits.mentions hΓ, forall_mem_cons.2 ⟨hcall, hrest⟩⟩⟩⟩

theorem PhiFits.mentions (harrivals : ∀ a ∈ arrivals, numbering.Holds a) (h : PhiFits arrivals i) :
    ∀ id ∈ i.mentions, id ∈ numbering := by
  obtain ⟨destination, ty, sources, rfl, hsrcs, -⟩ := h
  refine forall_mem_flatMap.2 fun s hs => ?_
  obtain ⟨a, ha, hlabel, hfits⟩ := exists_right hsrcs hs
  exact forall_mem_cons.2 ⟨hlabel ▸ (harrivals a ha).label, hfits.mentions (harrivals a ha).known⟩

theorem closing_mentions (exit : Option Point) (h : ∀ q, exit = some q → join ∈ numbering) :
    ∀ i ∈ closing join exit, ∀ id ∈ i.mentions, id ∈ numbering := by
  cases exit with
  | none => exact forall_mem_nil _
  | some q => exact forall_mem_singleton.2 (forall_mem_singleton.2 (h q rfl))

theorem Meets.join_mem (h : Meets arrivals join code exit stations) (hsome : arrivals ≠ [])
    (hcode : ∀ id ∈ definitions code, id ∈ numbering) : join ∈ numbering := by
  cases h with
  | nowhere hnone => exact absurd hnone hsome
  | somewhere => exact hcode join (.head _)

theorem Meets.mentions (h : Meets arrivals join code exit stations) (harrivals : ∀ a ∈ arrivals, numbering.Holds a)
    (hcode : ∀ id ∈ definitions code, id ∈ numbering) :
    (∀ i ∈ code, ∀ id ∈ i.mentions, id ∈ numbering) ∧ ∀ q ∈ exit, numbering.Holds q := by
  rcases h with _ | ⟨entry, phis, hsome, hentry, hphis⟩
  · simp
  obtain ⟨hjoin, hdefined⟩ := forall_mem_cons.1 hcode
  refine ⟨forall_mem_cons.2 ⟨forall_mem_nil _, fun i hi => (hphis i hi).mentions harrivals⟩, ?_⟩
  rintro _ ⟨⟩
  obtain ⟨a, ha⟩ := exists_mem_of_ne_nil _ hsome
  exact ⟨hjoin, Numbering.Covers.past (fun x hx => (harrivals a ha).known x (hentry a ha hx)) hdefined⟩

/-- **Structured code mentions no local that is not defined**, in it or before it. -/
theorem Laid.mentions (h : Laid env returnType p code exit stations) (hp : numbering.Holds p)
    (hcode : ∀ id ∈ definitions code, id ∈ numbering) :
    (∀ i ∈ code, ∀ id ∈ i.mentions, id ∈ numbering) ∧ ∀ q ∈ exit, numbering.Holds q := by
  induction h with
  | straight p h =>
    refine ⟨h.mentions hp.known hcode, ?_⟩
    rintro _ ⟨⟩
    exact ⟨hp.label, hp.known.past hcode⟩
  | @ret p value h =>
    refine ⟨forall_mem_singleton.2 ?_, by simp⟩
    cases value with
    | none => exact forall_mem_nil _
    | some => exact forall_mem_append.2 ⟨h.1.mentions hp.known, forall_mem_nil _⟩
  | seq _ _ ih ihmore =>
    rw [definitions_append] at hcode
    obtain ⟨hcode, hmore⟩ := forall_mem_append.1 hcode
    obtain ⟨hdefined, hq⟩ := ih hp hcode
    obtain ⟨hdefined', hexit⟩ := ihmore (hq _ rfl) hmore
    exact ⟨forall_mem_append.2 ⟨hdefined, hdefined'⟩, hexit⟩
  | @one p condition start join entry body meeting exit out stations met hcond hentry _ hmeets ih =>
    simp only [definitions_append, definitions_branch, definitions_label, definitions_closing, append_nil,
      forall_mem_append, forall_mem_cons] at hcode
    obtain ⟨⟨hstart, hbody⟩, hmeeting⟩ := hcode
    obtain ⟨hdefined, hexit⟩ := ih ⟨hstart, fun x hx => hp.known x (hentry hx)⟩ hbody
    obtain ⟨hmet, hout⟩ := hmeets.mentions (forall_mem_cons.2 ⟨hp, fun a ha => hexit a (by simpa using ha)⟩) hmeeting
    have hjoin : join ∈ numbering := hmeets.join_mem (cons_ne_nil _ _) hmeeting
    have hbranch : ∀ id ∈ condition.mentions ++ [start, join], id ∈ numbering :=
      forall_mem_append.2 ⟨hcond.1.mentions hp.known, by simp [hstart, hjoin]⟩
    simp only [forall_mem_append, forall_mem_cons]
    exact ⟨⟨⟨⟨hbranch, forall_mem_nil _, hdefined⟩, closing_mentions _ fun _ _ => hjoin⟩, hmet⟩, hout⟩
  | @two p condition start start' join entry entry' body body' meeting exit exit' out stations stations' met hcond
      hentry hentry' _ _ hmeets ih ih' =>
    simp only [definitions_append, definitions_branch, definitions_label, definitions_closing, append_nil,
      forall_mem_append, forall_mem_cons] at hcode
    obtain ⟨⟨⟨hstart, hbody⟩, hstart', hbody'⟩, hmeeting⟩ := hcode
    obtain ⟨hdefined, hexit⟩ := ih ⟨hstart, fun x hx => hp.known x (hentry hx)⟩ hbody
    obtain ⟨hdefined', hexit'⟩ := ih' ⟨hstart', fun x hx => hp.known x (hentry' hx)⟩ hbody'
    obtain ⟨hmet, hout⟩ := hmeets.mentions (forall_mem_append.2
      ⟨fun a ha => hexit a (by simpa using ha), fun a ha => hexit' a (by simpa using ha)⟩) hmeeting
    have hbranch : ∀ id ∈ condition.mentions ++ [start, start'], id ∈ numbering :=
      forall_mem_append.2 ⟨hcond.1.mentions hp.known, by simp [hstart, hstart']⟩
    have hclosing := closing_mentions exit fun q hq => hmeets.join_mem (by simp [hq]) hmeeting
    have hclosing' := closing_mentions exit' fun q hq => hmeets.join_mem (by simp [hq]) hmeeting
    simp only [forall_mem_append, forall_mem_cons]
    exact ⟨⟨⟨⟨⟨hbranch, forall_mem_nil _, hdefined⟩, hclosing⟩, ⟨forall_mem_nil _, hdefined'⟩, hclosing'⟩, hmet⟩,
      hout⟩

end Lowering.IR
