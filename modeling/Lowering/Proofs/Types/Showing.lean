import Lowering.Proofs.Types.Making
/-!
# Types are shown as they are written, but for their arguments

The text of a type leaves out the pointer that a value of a structure carries. A type that is an argument of a template
is no value and carries no such pointer, but its text is that of a value all the same: a mark is lost. So a text is what
was written or it is shorter (`Faithful`), and it is shorter exactly if a structure is written behind a mark in an
argument.
-/

namespace Lowering

open List

/-- A text is the written one if `P` holds, and shorter if not. -/
def Faithful (P : Prop) (shown written : String) : Prop := (P ∧ shown = written) ∨ (¬ P ∧ shown.length < written.length)

theorem Faithful.eq_iff (h : Faithful P shown written) : shown = written ↔ P := by
  obtain ⟨hP, heq⟩ | ⟨hP, hlt⟩ := h
  · exact ⟨fun _ => hP, fun _ => heq⟩
  · grind

theorem length_marked (depth : Nat) (name : String) : (marked depth name).length = depth + name.length := by
  rw [marked, String.length_append, String.length_ofList, length_replicate]

theorem Faithful.marked (h : Faithful P shown written)
    (hkept : Q → marks = depth) (hlost : ¬ Q → marks < depth) :
    Faithful (Q ∧ P) (marked marks shown) (marked depth written) := by
  unfold Faithful
  rw [length_marked, length_marked]
  by_cases hQ : Q
  · obtain ⟨hP, rfl⟩ | ⟨hP, hless⟩ := h
    · exact .inl ⟨⟨hQ, hP⟩, by rw [hkept hQ]⟩
    · simp [*]
  · have hle : shown.length ≤ written.length := by
      obtain ⟨-, rfl⟩ | ⟨-, hless⟩ := h
      · exact Nat.le_refl _
      · exact hless.le
    grind

/-- The length of texts, each with what stands between it and the next one. -/
def spread (texts : List String) : Nat := (texts.map fun text => text.length + 2).sum

theorem spread_cons (text : String) (rest : List String) : spread (text :: rest) = text.length + 2 + spread rest := rfl

theorem length_commaSeparated (texts : List String) : (commaSeparated texts).length = spread texts - 2 := by
  induction texts with
  | nil => rfl
  | cons text rest ih =>
    rcases rest with _ | ⟨next, rest⟩
    · rfl
    have hstep : commaSeparated (text :: next :: rest) = text ++ ", " ++ commaSeparated (next :: rest) := rfl
    have hcomma : ", ".length = 2 := rfl
    rw [hstep, String.length_append, String.length_append, ih, spread_cons text, spread_cons next]
    omega

theorem length_applied (name : String) (texts : List String) :
    (applied name texts).length = name.length + (spread texts - 2) + 3 := by
  rw [applied, String.length_append, String.length_append, String.length_append, length_commaSeparated]
  show name.length + 2 + _ + 1 = _
  omega

theorem Primitive.name_of_ofName? {name kind} (h : ofName? name = some kind) : kind.name = name := by
  have hfound := List.find?_some h
  exact beq_iff_eq.1 hfound

namespace TypeName

/-- No structure in a written type is behind a mark. -/
def Unmarked (ty : TypeName) : Prop :=
  ∀ inner : TypeName, inner.Within ty → inner.depth = 0 ∨ (Primitive.ofName? inner.name.symbol).isSome

theorem unmarked_iff {ty : TypeName} : ty.Unmarked ↔
    (ty.depth = 0 ∨ (Primitive.ofName? ty.name.symbol).isSome) ∧ ∀ inner ∈ ty.inner, inner.Unmarked := by
  constructor
  · exact fun h => ⟨h ty .self, fun inner hmem other hwithin => h other (.argument (mem_inner.1 hmem) hwithin)⟩
  intro ⟨hself, hinner⟩ inner hwithin
  cases hwithin with
  | self => exact hself
  | argument hmem hwithin => exact hinner _ (mem_inner.2 hmem) inner hwithin

/-- A written type whose text can be shown again. -/
def Legible (ty : TypeName) : Prop :=
  (ty.depth.toNat < TypeRef.depthLimit ∨ (Primitive.ofName? ty.name.symbol).isSome) ∧ ∀ inner ∈ ty.inner, inner.Unmarked

/-- What is written behind the marks. -/
def title (ty : TypeName) : String :=
  if ty.arguments.isEmpty then ty.name.symbol else applied ty.name.symbol (TemplateArgument.texts ty.arguments)

theorem text_eq (ty : TypeName) : ty.text = marked ty.depth.toNat ty.title := by
  obtain ⟨depth, name, arguments, span⟩ := ty
  cases arguments with
  | nil | cons => rw [text]; rfl

end TypeName

namespace Catalog

variable {c : Catalog} {ty : TypeName} {t : TypeRef}

/-- What a type stands for has the name that is written, up to its arguments. -/
inductive Shows (ty : TypeName) : TypeRef → Prop where
  | primitive {kind : Primitive} : ty.inner = [] → (Primitive.ofName? ty.name.symbol).isSome → kind.name = ty.title →
    Shows ty ⟨.primitive kind, ty.depth.toNat⟩
  | struct {ref : StructureRef} : Primitive.ofName? ty.name.symbol = none →
    Faithful (∀ inner ∈ ty.inner, inner.Unmarked) ref.name ty.title → Shows ty ⟨.struct ref, ty.depth.toNat⟩

theorem Shows.argument (h : Shows ty t) : Faithful ty.Unmarked t.text ty.text := by
  rw [TypeName.text_eq, TypeName.unmarked_iff]
  rcases h with ⟨hnone, hkind, hname⟩ | ⟨hforeign, hname⟩
  · rw [hnone, ← hname]
    exact .inl ⟨⟨.inr hkind, forall_mem_nil _⟩, rfl⟩
  refine hname.marked (fun hdepth => ?_) fun hdepth => ?_
  · simp_all
  · exact Nat.sub_lt (Nat.pos_of_ne_zero fun hzero => hdepth (.inl (UInt64.toNat_inj.1 hzero))) Nat.one_pos

/-- The pointer that a value of a structure carries is what its text leaves out, unless there is no room for it. -/
theorem Shows.value (h : Shows ty t) : Faithful ty.Legible t.lowered.text ty.text := by
  rw [TypeName.text_eq, TypeName.Legible]
  cases h with
  | primitive hnone hkind hname =>
    rw [hnone, ← hname]
    exact .inl ⟨⟨.inr hkind, forall_mem_nil _⟩, rfl⟩
  | @struct ref hforeign hname =>
    have hlimit : 0 < TypeRef.depthLimit := by decide
    have htext : (TypeRef.lowered ⟨.struct ref, ty.depth.toNat⟩).text =
      marked (min TypeRef.depthLimit (ty.depth.toNat + 1) - 1) ref.name := rfl
    rw [htext]
    refine hname.marked (fun hdepth => ?_) fun hdepth => ?_
    · grind
    · omega

theorem resolveName_shows (hnames : c.NamesAgree) (hty : ty.arguments = []) (h : c.resolve [] ty = .ok t) :
    Shows ty t := by
  have hinner : ty.inner = [] := by rw [TypeName.inner, hty]; rfl
  have htitle : ty.title = ty.name.symbol := by rw [TypeName.title, hty]; rfl
  rw [resolve_eq_resolveName hty, resolveName] at h
  split at h
  · next hbound => cases hbound
  · next kind _ hkind =>
    cases h
    refine .primitive hinner (by rw [hkind]; rfl) ?_
    rw [htitle, Primitive.name_of_ofName? hkind]
  rename_i _ hforeign
  split at h
  · cases h
  · next id hname =>
    obtain ⟨s, hs, hsname⟩ := hnames.titled hname
    rw [hs] at h
    obtain ⟨rfl, -⟩ := use_eq_ok h
    refine .struct hforeign (.inl ⟨?_, hsname.trans htitle.symm⟩)
    simp [hinner]
  · cases h

mutual

theorem resolve_shows (hc : c.Orderly) (hnames : c.NamesAgree) :
    ∀ {ty : TypeName} {t : TypeRef}, c.resolve [] ty = .ok t → Shows ty t
  | ⟨depth, name, arguments, span⟩, t, h => by
    by_cases hnone : arguments = []
    · exact resolveName_shows hnames hnone h
    obtain ⟨id, hname⟩ := lookup_of_resolve hnone h
    rw [resolve_template hname hnone] at h
    obtain ⟨ts, hts, h⟩ := bind_eq_ok h
    rcases hfound : c.instanceNamed? name.symbol ts with _ | s
    · grind
    rw [hfound] at h
    obtain ⟨rfl, -⟩ := use_eq_ok h
    have hsname : s.ref.name = applied name.symbol (ts.map TypeRef.text) := by
      obtain ⟨id', template, place, hname', ht, hplace, hs⟩ := instanceNamed?_eq_some_iff.1 hfound
      obtain ⟨t1, s1, ht1, hs1, -, hinst⟩ := (hc.owned ht).made hplace
      obtain ⟨t2, ht2, hsymbol⟩ := hnames.headed hname'
      cases ht.symm.trans ht1
      cases ht.symm.trans ht2
      cases hs.symm.trans hs1
      rw [hinst.name, hsymbol, instanceName]
    have htitle :
        (⟨depth, name, arguments, span⟩ : TypeName).title = applied name.symbol (TemplateArgument.texts arguments) :=
      if_neg fun h => hnone (isEmpty_iff.1 h)
    refine .struct (hnames.foreign hname) ?_
    rw [hsname, htitle]
    obtain ⟨hplain, htexts⟩ | ⟨hplain, hless⟩ := resolveArguments_shows hc hnames hts
    · exact .inl ⟨fun inner hmem => hplain inner (TypeName.mem_inner.1 hmem), by rw [htexts]⟩
    refine .inr ⟨fun h => hplain fun inner hmem => h inner (TypeName.mem_inner.2 hmem), ?_⟩
    have hsome : 2 ≤ spread (ts.map TypeRef.text) := by
      cases ts with
      | nil =>
        rcases arguments with _ | ⟨first, rest⟩
        · exact absurd rfl hnone
        obtain ⟨_, -, hts⟩ := bind_eq_ok hts
        obtain ⟨_, -, hts⟩ := bind_eq_ok hts
        cases hts
      | cons =>
        rw [map_cons, spread_cons]
        omega
    grind [length_applied]

theorem resolveArguments_shows (hc : c.Orderly) (hnames : c.NamesAgree) : ∀ {arguments} {ts : List TypeRef},
    c.resolveArguments [] arguments = .ok ts →
      ((∀ inner, .type inner ∈ arguments → inner.Unmarked) ∧ ts.map TypeRef.text = TemplateArgument.texts arguments) ∨
      (¬ (∀ inner, .type inner ∈ arguments → inner.Unmarked) ∧
        spread (ts.map TypeRef.text) < spread (TemplateArgument.texts arguments))
  | [], ts, h => by
    cases h
    exact .inl ⟨fun _ hmem => (by cases hmem), rfl⟩
  | .constant constant :: rest, ts, h => by
    cases h
  | .type ty :: rest, ts, h => by
    obtain ⟨t, ht, h⟩ := bind_eq_ok h
    obtain ⟨ts, hts, h⟩ := bind_eq_ok h
    cases h
    rw [map_cons, TemplateArgument.texts, TemplateArgument.text]
    simp only [spread_cons, mem_cons, TemplateArgument.type.injEq, forall_eq_or_imp, List.cons.injEq]
    obtain ⟨hty, htext⟩ | ⟨hty, hless⟩ := (resolve_shows hc hnames ht).argument
    · obtain ⟨hplain, htexts⟩ | ⟨hplain, hless⟩ := resolveArguments_shows hc hnames hts
      · exact .inl ⟨⟨hty, hplain⟩, htext, htexts⟩
      · simp [*]
    refine .inr ⟨fun h => hty h.1, ?_⟩
    obtain ⟨-, htexts⟩ | ⟨-, hless'⟩ := resolveArguments_shows hc hnames hts
    · rw [htexts]
      omega
    · omega

end

/-- **A type is shown as it was written**: the text of what `resolveValue` gives for `ty` is that of `ty` exactly if
nothing is lost (`Legible`), neither a mark of a structure that is written in an argument nor one that depths have no
room for. And two types that are shown as they were written are told apart if they were written differently. -/
theorem resolveValue_text {fileId : Nat} (hc : Relation.ReflTransGen Step { fileId } c)
    (h : c.resolveValue [] ty = .ok t) :
    (t.text = ty.text ↔ ty.Legible) ∧ ∀ ty' t', c.resolveValue [] ty' = .ok t' → ty.Legible → ty'.Legible →
      (t.text = t'.text ↔ ty.text = ty'.text) := by
  have hshown {ty : TypeName} {t : TypeRef} (h : c.resolveValue [] ty = .ok t) : t.text = ty.text ↔ ty.Legible := by
    obtain ⟨t, ht, rfl⟩ := map_eq_ok h
    exact (resolve_shows (steps_grow hc (.empty fileId)).1 (steps_namesAgree hc) ht).value.eq_iff
  grind

def boxOfAddress : TypeName := ⟨0, "Box", [.type ⟨1, "Node", [], {}⟩], {}⟩

/-- Boxes of nodes and of addresses of nodes. -/
def addressTypes : Catalog :=
  { boxTypes with
    structures := boxTypes.structures ++ [
      ⟨⟨2, "Box#[Node]", "struct.Box.0.1"⟩, boxDefinition, [("T", ⟨.struct ⟨0, "Node", "struct.Node.0"⟩, 1⟩)], .pending⟩]
    templates := [⟨boxDefinition, [([⟨.struct ⟨0, "Node", "struct.Node.0"⟩, 0⟩], 1),
      ([⟨.struct ⟨0, "Node", "struct.Node.0"⟩, 1⟩], 2)]⟩] }

theorem addressTypes_reachable : Relation.ReflTransGen Step { fileId := 0 } addressTypes :=
  boxTypes_reachable.tail (.instantiate (show Catalog.instantiate [] boxOfAddress _ = _ from rfl))

/-- A box of a node is shown as it is written. -/
theorem resolveValue_text_boxOfNode : Relation.ReflTransGen Step { fileId := 0 } addressTypes ∧
    addressTypes.resolveValue [] boxOfNode = .ok ⟨.struct ⟨1, "Box#[Node]", "struct.Box.0.0"⟩, 1⟩ ∧ boxOfNode.Legible ∧
    boxOfNode.text = "Box#[Node]" := by
  have hresolve : addressTypes.resolveValue [] boxOfNode = .ok ⟨.struct ⟨1, "Box#[Node]", "struct.Box.0.0"⟩, 1⟩ := rfl
  have htext : boxOfNode.text = "Box#[Node]" := rfl
  exact ⟨addressTypes_reachable, hresolve, (resolveValue_text addressTypes_reachable hresolve).1.1 htext.symm, htext⟩

/-- Boxes of nodes and of addresses of nodes are different types and written differently, but shown alike. -/
theorem resolveValue_text_ambiguous : Relation.ReflTransGen Step { fileId := 0 } addressTypes ∧
    addressTypes.resolveValue [] boxOfAddress = .ok ⟨.struct ⟨2, "Box#[Node]", "struct.Box.0.1"⟩, 1⟩ ∧
    addressTypes.resolveValue [] boxOfNode = .ok ⟨.struct ⟨1, "Box#[Node]", "struct.Box.0.0"⟩, 1⟩ ∧
    TypeRef.text ⟨.struct ⟨2, "Box#[Node]", "struct.Box.0.1"⟩, 1⟩ = boxOfNode.text ∧
      boxOfAddress.text = "Box#[@Node]" :=
  ⟨addressTypes_reachable, rfl, rfl, rfl, rfl⟩

end Catalog

end Lowering
