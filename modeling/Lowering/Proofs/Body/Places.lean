import Lowering.Proofs.Body.Sound
/-!
# Variables and the structures behind them

The code for reading a variable, for going to a field, and for copying a structure is straight and well typed. A place
that can be located is a variable and a chain of fields (`Catalog.Leads`), each in a structure that is laid out; so no
access to it can fail for a reason that is not the program's.
-/

namespace Lowering

open IR (Argument Operand Setting Typing)

variable {env : Setting} {c : Catalog} {Γ : Typing} {w : Workspace} {ctx : Context} {id : Nat} {s : Scope}
  {ref : StructureRef} {t target : TypeRef} {steps : List Step} {l : Location}

/-! ### Variables -/

namespace Variable.Sound

variable {v : Variable} {address : Argument} (h : v.Sound c Γ)
include h

theorem not_linear (hstor : v.storage = some address) : v.ty.isLinear = false := by
  cases hlin : v.ty.isLinear with
  | false => rfl
  | true => rw [(h.linear hlin).1] at hstor; cases hstor

theorem storage_fits (hstor : v.storage = some address) : address.Fits Γ ∧ address.ty.pointee? = some v.ty.irType := by
  have hlin := h.not_linear hstor
  obtain ⟨id, haddr, hmem⟩ := h.stored hlin
  cases hstor.symm.trans haddr
  rw [TypeRef.irType_of_not_linear hlin]
  exact ⟨hmem, rfl⟩

theorem load_typed (hstor : v.storage = some address) : (IR.Value.load v.ty.storageType address).Typed env Γ := by
  rw [← TypeRef.irType_of_not_linear (h.not_linear hstor)]
  exact h.storage_fits hstor

theorem load_feasible (hstor : v.storage = some address) : (IR.Value.load v.ty.storageType address).Feasible env := by
  have := TypeRef.irType_isScalar h.usable h.notVoid
  rwa [TypeRef.irType_of_not_linear (h.not_linear hstor)] at this

theorem available : v.Available := by
  intro hcache hstor
  cases hlin : v.ty.isLinear with
  | true =>
    obtain ⟨-, value, hvalue⟩ := h.linear hlin
    simp_all
  | false =>
    obtain ⟨id, haddr, -⟩ := h.stored hlin
    simp_all

theorem with_cache (value : Operand) (hvalue : value.Fits Γ v.ty.irType) (dirty : Bool) :
    Variable.Sound c Γ { v with cache := some value, dirty } where
  usable := h.usable
  notVoid := h.notVoid
  stored := h.stored
  linear hlin := ⟨(h.linear hlin).1, value, rfl⟩
  cached other hother := by
    cases hother
    exact hvalue
  dirty _ := ⟨value, rfl⟩

theorem without_cache (hlin : v.ty.isLinear = false) : Variable.Sound c Γ { v with cache := none, dirty := false } where
  usable := h.usable
  notVoid := h.notVoid
  stored := h.stored
  linear hlin' := by
    simp_all
  cached value hvalue := by cases hvalue
  dirty hdirty := by cases hdirty

theorem clean : Variable.Sound c Γ { v with dirty := false } where
  usable := h.usable
  notVoid := h.notVoid
  stored := h.stored
  linear := h.linear
  cached := h.cached
  dirty hdirty := by cases hdirty

end Variable.Sound

theorem readVariable_emits (env : Setting) (h : w.Sound c Γ) (hv : w.scope.get? id = some v) :
    Secures (readVariable id) w fun result w' =>
      Emits env c Γ w result.1 w' ∧ result.2.Fits (Γ.past result.1) ∧ result.2.ty = v.ty.irType := by
  have hsound := h.get? hv
  refine (Secures.of_ensures (readVariable_ensures id w) fun _ _ he => he.2 v hv hsound.available).mono
    fun result w' _ hres => ?_
  obtain ⟨v', hv', hcases⟩ := hres
  cases hv.symm.trans hv'
  obtain ⟨cache, hcache, rfl, rfl⟩ | ⟨address, hcache, hstor, rfl, rfl⟩ := hcases
  · exact ⟨.nil h, hsound.cached cache hcache, rfl⟩
  · have hload : Emits env c Γ w _ _ :=
      (Supplies.set w _ (hsound.load_typed hstor) (hsound.load_feasible hstor)).emits h
    have hfits : (w.fresh, v.ty.irType) ∈ Γ.past [.set w.fresh (.load v.ty.storageType address)] := by
      rw [TypeRef.irType_of_not_linear (hsound.not_linear hstor)]
      exact .head _
    refine ⟨?_, hfits, rfl⟩
    split
    · have hnew : Variable.Refines v { v with cache := some (.register w.fresh) } :=
        ⟨rfl, rfl, rfl, fun value hvalue => (by simp_all), fun hdirty => hdirty⟩
      have hknown := (hsound.mono (Typing.subset_past Γ _)).with_cache (.register w.fresh) hfits v.dirty
      exact ⟨hload.straight, hload.sound.put id hknown, .put hv hnew, hload.draws⟩
    · exact hload

/-- **Writing a known value back.** A value that is not written back yet was known already in every scope that the
present one refines, so the code can be put where that scope was in good order. -/
theorem flushVariable_straight (env : Setting) (hs : ∀ v ∈ s.vars, v.Sound c Γ) (hrefines : s.Refines w.scope)
    (hv : w.scope.get? id = some v) :
    Secures (flushVariable id) w fun code w' =>
      IR.Straight env Γ code ∧ IR.definitions code = [] ∧ w.scope.Refines w'.scope ∧ w'.fresh = w.fresh ∧
        ∀ Δ, w.Sound c Δ → w'.Sound c Δ := by
  refine (Secures.of_ensures (flushVariable_ensures id w) fun _ _ he => by cases hv.symm.trans he.2).mono
    fun code w' _ hres => ?_
  obtain ⟨v', hv', hcases⟩ := hres
  cases hv.symm.trans hv'
  obtain ⟨address, cache, hdirty, hstor, hcache, rfl, rfl⟩ | ⟨rfl, rfl⟩ := hcases
  · obtain ⟨u, hu, huv⟩ := hrefines.get?_left hv
    have hsound := hs u (Scope.mem_of_get? hu)
    obtain ⟨value, hvalue⟩ := hsound.dirty (huv.dirty hdirty)
    cases hcache.symm.trans (huv.cache value hvalue)
    rw [huv.storage] at hstor
    obtain ⟨haddr, hpointee⟩ := hsound.storage_fits hstor
    have hclean : Variable.Refines v { v with dirty := false } :=
      ⟨rfl, rfl, rfl, fun _ hvalue => hvalue, fun hdirty => by cases hdirty⟩
    have hfits := hsound.cached cache hvalue
    have hscalar := TypeRef.irType_isScalar hsound.usable hsound.notVoid
    rw [← huv.ty] at hfits hpointee hscalar
    exact ⟨.single ⟨⟨haddr, hfits, hpointee⟩, .inl hscalar⟩, rfl, .put hv hclean, rfl,
      fun Δ hw => hw.put id (hw.get? hv).clean⟩
  · exact ⟨.nil Γ, rfl, .refl _, rfl, fun _ hw => hw⟩

/-! ### Fields -/

theorem accessField_supplies (hctx : ctx.Sound env) (w : Workspace)
    (hlists : ctx.catalog.Lists ref) (hlayout : ctx.catalog.layout? ref = some layout)
    (hfield : layout.fields[index]? = some field) (hbase : base.Fits Γ) (hbaseType : base.ty = ref.irType.pointerTo)
    (reading : Bool) :
    Secures (accessField ctx.catalog ref index base reading) w fun access w' =>
      Supplies env Γ w access.code w' ∧ access.ty = field.ty ∧ access.value.Fits (Γ.past access.code) ∧
        access.value.ty = if reading then field.ty.irType else field.ty.storageType.pointerTo := by
  unfold accessField
  have hat : layout.at? index = some (index, field.ty) := by simp [Layout.at?, hfield]
  rw [hlayout]
  dsimp only
  rw [hat]
  have hselects := hctx.selects ref layout hlists hlayout index field hfield
  have hfind : (IR.Value.elementPointer ref.irType base [.i32 0, .i32 index] field.ty.storageType.pointerTo).Typed
      env Γ :=
    ⟨hbase, by rw [hbaseType]; rfl, ref.represent, index, field.ty.storageType, rfl, rfl, hselects, rfl⟩
  refine .bind (.fresh ?_)
  split
  · next hread =>
    obtain ⟨rfl, hlin⟩ : reading = true ∧ field.ty.isLinear = false := by simpa using hread
    have hload : (IR.Value.load field.ty.storageType (.register field.ty.storageType.pointerTo w.fresh)).Typed env
        (Γ.past [.set w.fresh (.elementPointer ref.irType base [.i32 0, .i32 index] field.ty.storageType.pointerTo)]) :=
      ⟨.head _, rfl⟩
    have hlaid := hctx.catalog.laidOut ref layout hlayout
    have hscalar := TypeRef.irType_isScalar (hlaid.usable field (List.mem_of_getElem? hfield))
      (hlaid.notVoid field (List.mem_of_getElem? hfield))
    rw [TypeRef.irType_of_not_linear hlin] at hscalar
    refine .bind (.fresh (.pure ⟨(Supplies.set w _ hfind trivial).append (.set _ _ hload hscalar), rfl, ?_, rfl⟩))
    rw [TypeRef.irType_of_not_linear hlin]
    exact .tail _ (.head _)
  rename_i hread
  refine .pure ⟨.set w _ hfind trivial, rfl, .head _, ?_⟩
  rcases reading with _ | _
  · rfl
  have hlin : field.ty.isLinear = true := by simpa using hread
  rw [TypeRef.irType_of_linear hlin]
  rfl

/-- The steps lead from a value of one type to a place of another: each to a field of a structure that is laid out. -/
def Catalog.Leads (c : Catalog) : TypeRef → List Step → TypeRef → Prop
  | t, [], target => t = target
  | t, step :: rest, target =>
    (t.structure? = some step.struct ∧ (t.depth = 1 ∨ t.depth = 2)) ∧
      (∃ layout, c.layout? step.struct = some layout ∧
        ∃ field, layout.fields[step.index]? = some field ∧ field.ty = step.ty) ∧
      c.Leads step.ty rest target

theorem Catalog.fieldOf_eq_ok {step} (h : c.fieldOf t key span = .ok step) :
    (t.structure? = some step.struct ∧ (t.depth = 1 ∨ t.depth = 2)) ∧
      ∃ layout, c.layout? step.struct = some layout ∧ key.lookup layout = some (step.index, step.ty) := by
  unfold fieldOf at h
  dsimp only at h
  split at h
  · next ref href =>
    split at h
    · cases h
    rename_i hdepth
    split at h
    · next index ty hfield =>
      cases h
      obtain ⟨layout, hlayout, hlook⟩ := Option.bind_eq_some_iff.1 hfield
      exact ⟨⟨href, by omega⟩, layout, hlayout, hlook⟩
    · cases h
  · cases h

theorem FieldKey.lookup_eq_some {key : FieldKey} (h : key.lookup layout = some (index, t)) :
    ∃ field, layout.fields[index]? = some field ∧ field.ty = t := by
  rcases key with name | i
  · obtain ⟨i, -, h⟩ := Option.bind_eq_some_iff.1 h
    grind
  obtain ⟨field, hfield, h⟩ := Option.bind_eq_some_iff.1 h
  simp_all

theorem Catalog.follow_leads (h : c.follow t accesses = .ok (steps, target)) : c.Leads t steps target := by
  induction accesses generalizing t steps with
  | nil =>
    cases h
    exact rfl
  | cons access rest ih =>
    obtain ⟨key, -, h⟩ := bind_eq_ok h
    obtain ⟨step, hstep, h⟩ := bind_eq_ok h
    obtain ⟨⟨more, last⟩, hrest, h⟩ := bind_eq_ok h
    cases h
    obtain ⟨hshallow, layout, hlayout, hlook⟩ := fieldOf_eq_ok hstep
    exact ⟨hshallow, ⟨layout, hlayout, FieldKey.lookup_eq_some hlook⟩, ih hrest⟩

/-- What a chain of fields leads to can be used, like what it starts from. -/
theorem Catalog.Leads.usable (hc : c.Sound) (h : c.Leads t steps target) (ht : c.Usable t) (hvoid : t.isVoid = false) :
    c.Usable target ∧ target.isVoid = false := by
  induction steps generalizing t with
  | nil =>
    cases h
    exact ⟨ht, hvoid⟩
  | cons step rest ih =>
    obtain ⟨-, ⟨layout, hlayout, field, hfield, hty⟩, hrest⟩ := h
    have hlaid := hc.laidOut step.struct layout hlayout
    have hmem := List.mem_of_getElem? hfield
    exact ih hrest (hty ▸ hlaid.usable field hmem) (hty ▸ hlaid.notVoid field hmem)

theorem walkSteps_supplies (hctx : ctx.Sound env) (w : Workspace) (hsteps : ctx.catalog.Leads t steps target)
    (ht : ctx.catalog.Usable t) (hbase : base.Fits Γ) (hbaseType : base.ty = t.irType) (reading : Bool) :
    Secures (walkSteps ctx.catalog reading base steps) w fun result w' =>
      Supplies env Γ w result.1 w' ∧ result.2.Fits (Γ.past result.1) ∧
        result.2.ty = if reading || steps.isEmpty then target.irType else target.storageType.pointerTo := by
  induction steps generalizing t w Γ base with
  | nil =>
    cases hsteps
    exact .pure ⟨.nil env Γ w, hbase, by simpa using hbaseType⟩
  | cons step rest ih =>
    obtain ⟨⟨hstructure, hdepth⟩, ⟨layout, hlayout, field, hfield, hty⟩, hrest⟩ := hsteps
    rw [TypeRef.irType_of_shallow hstructure hdepth] at hbaseType
    have hlaid := hctx.catalog.laidOut step.struct layout hlayout
    have husable := hlaid.usable field (List.mem_of_getElem? hfield)
    refine .bind ((accessField_supplies hctx w (ht.known step.struct hstructure) hlayout hfield hbase hbaseType
      (reading || !rest.isEmpty)).mono fun access w' _ haccess => ?_)
    obtain ⟨hcode, -, hvalue, hvalueType⟩ := haccess
    rcases rest with _ | ⟨next, more⟩
    · -- the last field is read only if that is wanted
      cases hrest
      refine .bind (.pure (.pure ⟨?_, ?_, ?_⟩))
      · simpa using hcode
      · simpa using hvalue
      · simpa [hty] using hvalueType
    have hread : access.value.ty = step.ty.irType := by simpa [hty] using hvalueType
    refine .bind ((ih w' hrest (hty ▸ husable) hvalue hread).mono fun result w'' _ hres => ?_)
    obtain ⟨hmore, hfits, htype⟩ := hres
    refine .pure ⟨hcode.append hmore, ?_, by simpa using htype⟩
    exact hfits.mono fun x hx => Typing.mem_past_append.2 hx

/-! ### Locations -/

theorem Scope.find?_eq_some (h : s.find? name = some id) :
    ∃ v, s.get? id = some v ∧ v.name = name ∧ ∀ other u, id < other → s.get? other = some u → u.name ≠ name := by
  obtain ⟨fromEnd, hfromEnd, rfl⟩ := Option.map_eq_some_iff.1 h
  obtain ⟨hlt, hname, hlater⟩ := List.findIdx?_eq_some_iff_getElem.1 hfromEnd
  rw [List.length_reverse] at hlt
  refine ⟨_, List.getElem?_eq_getElem (by omega), by simpa using hname, fun other u hother hu => ?_⟩
  obtain ⟨hlt', rfl⟩ := List.getElem?_eq_some_iff.1 hu
  have hne := hlater (s.vars.length - 1 - other) (by omega)
  grind

theorem Scope.lookup_eq_ok (h : s.lookup name = .ok id) : s.find? name.symbol = some id := by
  grind [Scope.lookup]

/-- A place that can be located is a variable and a chain of fields. -/
theorem Scope.locate_eq_ok (h : s.locate c p = .ok l) :
    ∃ v, s.get? l.root = some v ∧ s.find? p.name.symbol = some l.root ∧
      c.follow v.ty p.accesses = .ok (l.steps, l.ty) := by
  obtain ⟨root, hroot, h⟩ := bind_eq_ok h
  split at h
  · cases h
  rename_i v hv
  obtain ⟨⟨steps, ty⟩, hfollow, h⟩ := bind_eq_ok h
  cases h
  exact ⟨v, hv, lookup_eq_ok hroot, hfollow⟩

/-- A location in sight: the variable is there, and the steps lead to the type. -/
def Location.InSight (c : Catalog) (s : Scope) (l : Location) : Prop :=
  ∃ v, s.get? l.root = some v ∧ c.Leads v.ty l.steps l.ty

theorem Scope.locate_inSight (h : s.locate c p = .ok l) : l.InSight c s := by
  obtain ⟨v, hv, -, hfollow⟩ := Scope.locate_eq_ok h
  exact ⟨v, hv, Catalog.follow_leads hfollow⟩

theorem Location.InSight.usable (hc : c.Sound) (hs : ∀ v ∈ s.vars, v.Sound c Γ) (h : l.InSight c s) :
    c.Usable l.ty ∧ l.ty.isVoid = false := by
  obtain ⟨v, hv, hleads⟩ := h
  have hsound := hs v (List.mem_of_getElem? hv)
  exact hleads.usable hc hsound.usable hsound.notVoid

theorem walkTo_emits (hctx : ctx.Sound env) (h : w.Sound ctx.catalog Γ) (hl : l.InSight ctx.catalog w.scope)
    (reading : Bool) :
    Secures (walkTo ctx.catalog l reading) w fun result w' =>
      Emits env ctx.catalog Γ w result.1 w' ∧ result.2.Fits (Γ.past result.1) ∧
        result.2.ty = if reading || l.steps.isEmpty then l.ty.irType else l.ty.storageType.pointerTo := by
  obtain ⟨v, hv, hleads⟩ := hl
  refine .bind ((readVariable_emits env h hv).mono fun read w' _ hread => ?_)
  obtain ⟨hemits, hfits, htype⟩ := hread
  refine .bind ((walkSteps_supplies hctx w' hleads (h.get? hv).usable hfits htype reading).mono
    fun result w'' _ hres => ?_)
  obtain ⟨hmore, hfits', htype'⟩ := hres
  exact .pure ⟨hemits.append (hmore.emits hemits.sound), hfits'.mono fun x hx => Typing.mem_past_append.2 hx, htype'⟩

/-! ### Copies -/

theorem copyStructure_supplies (hctx : ctx.Sound env) (w : Workspace)
    (href : ∃ d ∈ env.structures, d.name = ref.represent) (hdest : destination.Fits Γ)
    (hdestinationType : destination.ty = ref.irType.pointerTo) (hsrc : source.Fits Γ)
    (hsourceType : source.ty = ref.irType.pointerTo) :
    Secures (copyStructure ref destination source) w fun code w' => Supplies env Γ w code w' := by
  refine .bind (.noteCopy (.bind (.fresh (.bind (.fresh (.bind (.fresh (.pure ?_))))))))
  refine ⟨.copy ⟨hsrc, hsourceType, hdest, hdestinationType, href, hctx.memcpy⟩ (.nil _), rfl, ?_⟩
  exact ((Draws.one w.fresh).append (.one _)).append (.one _)

theorem cloneStructure_supplies (hctx : ctx.Sound env) (w : Workspace)
    (href : (∃ d ∈ env.structures, d.name = ref.represent) ∧ env.allots ref.irType)
    (hsrc : source.Fits Γ) (hsourceType : source.ty = ref.irType.pointerTo) :
    Secures (cloneStructure ref source) w fun result w' =>
      Supplies env Γ w result.1 w' ∧ result.2.Fits (Γ.past result.1) ∧ result.2.ty = ref.irType.pointerTo := by
  refine .bind (.fresh ?_)
  have halloc : Supplies env Γ w _ _ := .set w (.alloc ref.irType) trivial ⟨fun _ => href.1, href.2⟩
  have hclone : Argument.Fits (Γ.past [.set w.fresh (.alloc ref.irType)])
      (.register ref.irType.pointerTo w.fresh) := List.mem_cons_self ..
  refine .bind ((copyStructure_supplies hctx _ href.1 hclone rfl (hsrc.mono (Typing.subset_past ..))
    hsourceType).mono fun copy w' _ hcopy => ?_)
  exact .pure ⟨halloc.append hcopy, Argument.Fits.mono hclone fun x hx =>
    Typing.mem_past_append.2 (Typing.subset_past _ _ hx), rfl⟩

end Lowering
