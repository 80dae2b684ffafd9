import Lowering.Proofs.Blames
import Lowering.Proofs.Types.Catalog
import Lowering.Types.Link
/-!
# Laying structures out keeps a catalog in good order, and leaves no structure untried

While a structure is laid out, those on the stack are not touched, and a structure that was settled before stays as it
is (`Catalog.Progresses`). So the layout that is noted at the end for the structure at hand meets the same pending entry
that was there in the beginning, and what was computed about inner structures is still true. After `Catalog.link` every
structure is either laid out or known to be broken (`Catalog.Settled`); a type that can then be resolved can be used.
-/

namespace Lowering

open List

theorem Structure.pending_iff (s : Structure) : s.status = .pending ↔ s.isLinked = false ∧ s.hasFailed = false := by
  obtain ⟨ref, source, bindings, layout, broken⟩ := s
  simp [Structure.isLinked, Structure.layout?, Structure.hasFailed]

theorem Structure.ne_pending_iff (s : Structure) : s.status ≠ .pending ↔ s.isLinked = true ∨ s.hasFailed = true := by
  rw [Ne, s.pending_iff, not_and_or, Bool.not_eq_false, Bool.not_eq_false]

namespace Catalog

/-! ### Setting a status -/

variable {layout : Layout}

section SetStatus

variable {c : Catalog} {id : Nat} {s : Structure} {status : Status} {ref : StructureRef}

theorem structure?_setStatus (c : Catalog) (id : Nat) (status : Status) (other : Nat) :
    (c.setStatus id status).structure? other =
      (c.structure? other).map fun s => if id = other then { s with status } else s :=
  List.getElem?_modify ..

theorem structure?_setStatus_inv (h : (c.setStatus id status).structure? other = some s) :
    ∃ s0, c.structure? other = some s0 ∧ s = { s0 with status := s.status } := by
  rw [structure?_setStatus] at h
  obtain ⟨s0, hs0, rfl⟩ := Option.map_eq_some_iff.1 h
  grind

theorem structure?_setStatus_ne (h : id ≠ other) : (c.setStatus id status).structure? other = c.structure? other := by
  simp [structure?_setStatus, h]

theorem layout?_setStatus_ne (h : id ≠ ref.id) : (c.setStatus id status).layout? ref = c.layout? ref := by
  unfold layout?
  rw [structure?_setStatus_ne h]

variable (hs : c.structure? id = some s)
include hs

theorem structure?_setStatus_self : (c.setStatus id status).structure? id = some { s with status } := by
  simp [structure?_setStatus, hs]

theorem layout?_setStatus_self (h : id = ref.id) :
    (c.setStatus id status).layout? ref = Structure.layout? { s with status } := by
  subst h
  unfold layout?
  rw [structure?_setStatus_self hs]
  rfl

theorem layout?_of_pending (hp : s.status = .pending) (h : id = ref.id) : c.layout? ref = none := by
  subst h
  simp [layout?, hs, Structure.layout?, hp]

/-- A pending structure may be given any status. -/
theorem extends_setStatus (status : Status) (hp : s.status = .pending) : c.Extends (c.setStatus id status) where
  kept other t ht := by
    refine ⟨_, by rw [structure?_setStatus, ht]; rfl, ?_⟩
    split <;> exact ⟨rfl, rfl, rfl⟩
  stays ref layout hl := by
    by_cases h : id = ref.id
    · rw [layout?_of_pending hs hp h] at hl
      cases hl
    · rw [layout?_setStatus_ne h, hl]

theorem linkedCount_setStatus (hp : s.status = .pending) :
    (c.setStatus id status).linkedCount = c.linkedCount + if { s with status }.isLinked then 1 else 0 := by
  obtain ⟨hid, rfl⟩ := List.getElem?_eq_some_iff.1 hs
  have hold : c.structures[id].isLinked = false := by simp [Structure.isLinked, Structure.layout?, hp]
  have hsplit : c.linkedCount = (c.structures.take id).countP Structure.isLinked +
      (c.structures.drop (id + 1)).countP Structure.isLinked := by
    conv => lhs; rw [linkedCount, ← take_append_drop id c.structures, drop_eq_getElem_cons hid]
    rw [countP_append, countP_cons_of_neg (by simp [hold])]
  rw [hsplit, linkedCount, setStatus, modify_eq_take_cons_drop hid, countP_append, countP_cons]
  omega

theorem layout?_setStatus_cases (hl : (c.setStatus id status).layout? ref = some layout) :
    (id ≠ ref.id ∧ c.layout? ref = some layout) ∨ (id = ref.id ∧ status.layout = some layout) := by
  by_cases h : id = ref.id
  · rw [layout?_setStatus_self hs h] at hl
    exact .inr ⟨h, hl⟩
  · exact .inl ⟨h, by rwa [layout?_setStatus_ne h] at hl⟩

/-- Ranks after a pending structure was given a status: it comes above everything that is inside it. -/
theorem Sound.ranked_setStatus (hc : c.Sound) (hp : s.status = .pending)
    (hstatus : ∀ layout, status.layout = some layout → c.LaidOut layout) :
    ∃ rank, (c.setStatus id status).Ranked rank := by
  obtain ⟨rank, hrank⟩ := hc.ranked
  -- a structure that is laid out is not the pending one
  have hne : ∀ ref layout, c.layout? ref = some layout → ref.id ≠ id := by
    intro ref layout hl h
    rw [layout?_of_pending hs hp h.symm] at hl
    cases hl
  refine ⟨fun i => if i = id then c.linkedCount else rank i, fun ref layout hl => ?_⟩
  dsimp only
  obtain ⟨h, hl⟩ | ⟨h, hl⟩ := layout?_setStatus_cases hs hl
  · obtain ⟨hlt, hinner⟩ := hrank ref layout hl
    rw [linkedCount_setStatus hs hp, if_neg (Ne.symm h)]
    refine ⟨by omega, fun f hf inner hi => ?_⟩
    obtain ⟨l, hl'⟩ := ((hc.laidOut ref layout hl).usable f hf).linked inner hi
    grind
  rw [linkedCount_setStatus hs hp, if_pos h.symm]
  refine ⟨by simp [Structure.isLinked, Structure.layout?, hl], fun f hf inner hi => ?_⟩
  obtain ⟨l, hl'⟩ := ((hstatus layout hl).usable f hf).linked inner hi
  rw [if_neg (hne inner l hl')]
  exact (hrank inner l hl').1

/-- A pending structure may be marked as broken, or as laid out if its fields are in good order. -/
theorem Sound.setStatus (hc : c.Sound) (hp : s.status = .pending)
    (hstatus : ∀ layout, status.layout = some layout → c.LaidOut layout)
    (hsingle : status.broken = true → status.layout = none) : (c.setStatus id status).Sound := by
  have hextends := extends_setStatus hs status hp
  constructor
  case placed =>
    intro other t ht
    obtain ⟨t0, ht0, ht'⟩ := structure?_setStatus_inv ht
    rw [ht']
    exact hc.placed other t0 ht0
  case bound =>
    intro other t ht b hb
    obtain ⟨t0, ht0, ht'⟩ := structure?_setStatus_inv ht
    rw [ht'] at hb
    exact hextends.knows (hc.bound other t0 ht0 b hb)
  case laidOut =>
    intro ref layout hl
    obtain ⟨-, hl⟩ | ⟨-, h⟩ := layout?_setStatus_cases hs hl
    · exact hextends.laidOut (hc.laidOut ref layout hl)
    · exact hextends.laidOut (hstatus layout h)
  case ranked => exact hc.ranked_setStatus hs hp hstatus
  case single =>
    intro other t ht hfailed
    by_cases h : id = other
    · subst h
      rw [structure?_setStatus_self hs] at ht
      cases ht
      exact hsingle hfailed
    · rw [structure?_setStatus_ne h] at ht
      exact hc.single other t ht hfailed

theorem mark_eq (change : Status → Status) : c.mark id change = c.setStatus id (change s.status) := by
  rw [mark, hs]

end SetStatus

/-! ### What linking keeps -/

/-- `addField` changes nothing in the catalog. It fails with an overflow, exactly if the size does not fit a word. -/
theorem ensures_addField {c : Catalog} {name ty span} {Q : Layout → Catalog → Prop} {E : Diagnostic → Catalog → Prop}
    (hok : layout.size + (c.sizeOf? ty).getD 0 < 2 ^ 64 →
      Q ⟨layout.fields ++ [⟨name, ty⟩], layout.size + (c.sizeOf? ty).getD 0⟩ c)
    (hover : 2 ^ 64 ≤ layout.size + (c.sizeOf? ty).getD 0 → E (.error .sizeOverflow span) c) :
    Ensures (addField layout name ty span) c Q E := by
  refine .bind (.get ?_)
  dsimp only
  split
  · next h => exact .throw (hover h)
  · next h => exact .pure (hok (Nat.lt_of_not_le h))

section Preserving

variable {P : Catalog → Prop} {bindings : Bindings}

/-- A step that keeps a property, also when it fails, which it does with an error only. -/
def Preserves {α : Type} (P : Catalog → Prop) (x : Cataloging α) : Prop :=
  ∀ {c}, P c → Ensures x c (fun _ => P) fun d c' => P c' ∧ d.isError = true

theorem linkFields_preserves (hinner : ∀ ref, Preserves P (linkInner ref)) (layout : Layout)
    (fields : List FieldDefinition) : Preserves P (linkFields linkInner bindings layout fields) := by
  intro c hc
  induction fields generalizing layout c with
  | nil => exact .pure hc
  | cons field rest ih =>
    rw [linkFields]
    dsimp only
    split
    · exact .throw ⟨hc, rfl⟩
    refine .bind (ensures_ask (fun ty _ => ?_) fun d hd => ⟨hc, (resolveValue_blames _ d hd).1⟩)
    split
    · exact .throw ⟨hc, rfl⟩
    have hrest {c} (hc : P c) : Ensures (do
        linkFields linkInner bindings (← addField layout field.name.symbol ty field.span) rest) c
        (fun _ => P) fun d c' => P c' ∧ d.isError = true :=
      .bind (ensures_addField (fun _ => ih _ hc) fun _ => ⟨hc, rfl⟩)
    split
    · next ref _ => exact .bind ((hinner ref hc).mono (fun _ _ _ hc' => hrest hc') fun _ _ _ h => h)
    · exact hrest hc

variable (hstatus : ∀ {c : Catalog}, P c → ∀ id status, P (c.setStatus id status))
include hstatus

theorem mark_preserves (hc : P c) (id : Nat) (change : Status → Status) : P (c.mark id change) := by
  unfold mark
  split
  · exact hstatus hc id _
  · exact hc

theorem linkStructure_preserves (hinner : ∀ link ∈ linkInner, ∀ ref, Preserves P (link ref)) (stack : List Nat)
    (id : Nat) : Preserves P (linkStructure linkInner stack id) := by
  intro c hc
  unfold linkStructure
  refine .bind (.get ?_)
  split
  · next s _ =>
    dsimp only
    split
    · exact .throw ⟨hc, rfl⟩
    split
    · exact .pure hc
    split
    · exact .throw ⟨hc, rfl⟩
    split
    · exact .throw ⟨hc, rfl⟩
    rename_i link
    refine .tryCatch (.bind ((linkFields_preserves (hinner link rfl) _ _ hc).mono (fun layout c' _ hc' => ?_)
      fun d c' _ hc' => ?_))
    · exact .modify (mark_preserves hstatus hc' id _)
    · exact .bind (.modify (.throw ⟨mark_preserves hstatus hc'.1 id _, hc'.2⟩))
  · exact .pure hc

theorem linkWithin_preserves (room : Nat) (stack : List Nat) (id : Nat) : Preserves P (linkWithin room stack id) := by
  induction room generalizing stack id with
  | zero => exact linkStructure_preserves hstatus (fun _ h => absurd h (Option.not_mem_none _)) stack id
  | succ room ih =>
    refine linkStructure_preserves hstatus (fun link hlink ref => ?_) stack id
    cases hlink
    exact ih _ _

/-- What a new status keeps is kept all the way, and what is reported is an error. -/
theorem linkEach_preserves (hc : P c) (ids : List Nat) :
    P (linkEach c ids).1 ∧ ∀ d ∈ (linkEach c ids).2, d.isError = true := by
  induction ids generalizing c with
  | nil => exact ⟨hc, forall_mem_nil _⟩
  | cons id rest ih =>
    have hfirst : P (c.linkAt id).1 ∧ ∀ d ∈ (c.linkAt id).2.toList, d.isError = true := by
      unfold linkAt
      split
      · exact ⟨hc, forall_mem_nil _⟩
      split
      · exact ⟨hc, forall_mem_nil _⟩
      have hkept := linkWithin_preserves hstatus c.structures.length [] id hc
      split
      · next h => exact ⟨hkept.of_ok h, forall_mem_nil _⟩
      · next h => exact ⟨(hkept.of_error h).1, forall_mem_singleton.2 (hkept.of_error h).2⟩
    obtain ⟨hrest, herrs⟩ := ih hfirst.1
    exact ⟨hrest, forall_mem_append.2 ⟨hfirst.2, herrs⟩⟩

end Preserving

/-! ### Linking -/

/-- `c'` comes from `c` by linking, while the structures of `stack` were in progress: only structures that were pending
and are not on the stack were touched. -/
structure Progresses (stack : List Nat) (c c' : Catalog) : Prop where
  toExtends : c.Extends c'
  length : c'.structures.length = c.structures.length
  settled : ∀ id s, c.structure? id = some s → id ∈ stack ∨ s.status ≠ .pending → c'.structure? id = some s

namespace Progresses

variable {stack : List Nat} {c c' c'' : Catalog}

theorem refl (stack : List Nat) (c : Catalog) : Progresses stack c c := ⟨.refl c, rfl, fun _ _ h _ => h⟩

theorem trans (h : Progresses stack c c') (h' : Progresses stack c' c'') : Progresses stack c c'' where
  toExtends := h.toExtends.trans h'.toExtends
  length := h'.length.trans h.length
  settled id s hs hid := h'.settled id s (h.settled id s hs hid) hid

theorem setStatus {id s} (h : Progresses (id :: stack) c c') (hs : c.structure? id = some s)
    (hp : s.status = .pending) (hid : id ∉ stack) (status : Status) :
    Progresses stack c (c'.setStatus id status) where
  toExtends := h.toExtends.trans (extends_setStatus (h.settled id s hs (.inl (.head _))) status hp)
  length := by rw [← h.length]; exact length_modify ..
  settled other t ht hother := by
    have hne : id ≠ other := by
      grind
    rw [structure?_setStatus_ne hne]
    exact h.settled other t ht (hother.imp (mem_cons_of_mem _) fun h => h)

end Progresses

section Linking

variable {stack : List Nat} {c : Catalog} {bindings : Bindings}

/-- Laying a structure out progresses, and in the end it has a layout. -/
def Links (stack : List Nat) (link : StructureRef → Cataloging Unit) : Prop :=
  ∀ (c : Catalog) (ref : StructureRef), c.Sound → c.Lists ref →
    Ensures (link ref) c
      (fun _ c' => c'.Sound ∧ Progresses stack c c' ∧ ∃ layout, c'.layout? ref = some layout)
      fun _ c' => c'.Sound ∧ Progresses stack c c'

theorem LaidOut.push (h : c.LaidOut layout) {ty : TypeRef} (hty : c.Usable ty) (hvoid : ty.isVoid = false)
    (hname : name ∉ layout.fields.map Field.name) (hfits : layout.size + (c.sizeOf? ty).getD 0 < 2 ^ 64) :
    c.LaidOut ⟨layout.fields ++ [⟨name, ty⟩], layout.size + (c.sizeOf? ty).getD 0⟩ where
  distinct := by
    rw [map_append, nodup_append]
    exact ⟨h.distinct, by simp, by grind⟩
  usable f hf := by
    obtain hf | hf := mem_append.1 hf
    · exact h.usable f hf
    · simp_all
  notVoid f hf := by
    obtain hf | hf := mem_append.1 hf
    · exact h.notVoid f hf
    · simp_all
  size := by simp [fieldsSize, h.size]
  fits := hfits

theorem linkFields_laidOut (hinner : Links stack linkInner) (hc : c.Sound) (hb : ∀ b ∈ bindings, c.Knows b.2)
    (hlayout : c.LaidOut layout) (fields : List FieldDefinition) :
    Ensures (linkFields linkInner bindings layout fields) c
      (fun layout' c' => c'.Sound ∧ Progresses stack c c' ∧ c'.LaidOut layout')
      fun _ c' => c'.Sound ∧ Progresses stack c c' := by
  induction fields generalizing c layout with
  | nil => exact Ensures.pure ⟨hc, .refl stack c, hlayout⟩
  | cons field rest ih =>
    rw [linkFields]
    dsimp only
    split
    · exact Ensures.throw ⟨hc, .refl stack c⟩
    rename_i hnew
    have hname : field.name.symbol ∉ layout.fields.map Field.name := by simpa using hnew
    refine Ensures.bind (ensures_ask (fun ty hty => ?_) fun _ _ => ⟨hc, .refl stack c⟩)
    split
    · exact Ensures.throw ⟨hc, .refl stack c⟩
    rename_i hvoid
    obtain ⟨written, hwritten, rfl⟩ := map_eq_ok hty
    have hknown : c.Knows written.lowered := lowered_knows (resolve_knows hc.placed hb hwritten)
    -- what remains once the field can be used, wherever that leads
    have hrest : ∀ c', c'.Sound → Progresses stack c c' → c'.Usable written.lowered →
        Ensures (do
            linkFields linkInner bindings (← addField layout field.name.symbol written.lowered field.span) rest) c'
          (fun layout' c'' => c''.Sound ∧ Progresses stack c c'' ∧ c''.LaidOut layout')
          fun _ c'' => c''.Sound ∧ Progresses stack c c'' := by
      intro c' hc' hprog husable
      refine Ensures.bind (ensures_addField (fun hfits => ?_) fun _ => ⟨hc', hprog⟩)
      have hpush := (hprog.toExtends.laidOut hlayout).push husable (by simpa using hvoid) hname hfits
      exact (ih hc' (fun b hmem => hprog.toExtends.knows (hb b hmem)) hpush).mono
        (fun _ _ _ h => ⟨h.1, hprog.trans h.2.1, h.2.2⟩) fun _ _ _ h => ⟨h.1, hprog.trans h.2⟩
    split
    · next ref href =>
      refine Ensures.bind ((hinner c ref hc (hknown ref (structure?_of_linear? href))).mono
        (fun _ c' _ h => ?_) fun _ _ _ h => h)
      obtain ⟨hc', hprog, layout', hl⟩ := h
      refine hrest c' hc' hprog ⟨hprog.toExtends.knows hknown, fun _ => lowered_deep, ?_⟩
      simp [*]
    · next hlin =>
      exact hrest c hc (.refl stack c) ⟨hknown, fun _ => lowered_deep, fun ref href => absurd href (hlin ref)⟩

/-- **Laying out one structure.** The structures inside are laid out with one more on the stack; the structure itself is
settled only after that, and is then still pending. Where there is room, it is settled also if that fails. -/
theorem linkStructure_links (hinner : ∀ link ∈ linkInner, Links (ref.id :: stack) link)
    (hc : c.Sound) (hlists : c.Lists ref) :
    Ensures (linkStructure linkInner stack ref.id) c
      (fun _ c' => c'.Sound ∧ Progresses stack c c' ∧ ∃ layout, c'.layout? ref = some layout)
      fun _ c' => c'.Sound ∧ Progresses stack c c' ∧
        (ref.id ∉ stack → linkInner.isSome → ∃ s, c'.structure? ref.id = some s ∧ s.status ≠ .pending) := by
  obtain ⟨s, hs, -⟩ := hlists
  rw [linkStructure]
  refine Ensures.bind (Ensures.get ?_)
  rw [hs]
  dsimp only
  split
  · next hstack => exact Ensures.throw ⟨hc, .refl stack c, fun hid => absurd (by simpa using hstack) hid⟩
  rename_i hstack
  have hid : ref.id ∉ stack := by simpa using hstack
  split
  · next hlinked =>
    obtain ⟨layout, hl⟩ := Option.isSome_iff_exists.1 hlinked
    exact Ensures.pure ⟨hc, .refl stack c, layout, by rw [layout?, hs]; exact hl⟩
  rename_i hunlinked
  split
  · next hfailed => exact Ensures.throw ⟨hc, .refl stack c, fun _ _ => ⟨s, hs, s.ne_pending_iff.2 (.inr hfailed)⟩⟩
  rename_i hok
  have hp : s.status = .pending := s.pending_iff.2 ⟨by simpa using hunlinked, by simpa using hok⟩
  split
  · exact Ensures.throw ⟨hc, .refl stack c, fun _ hroom => by cases hroom⟩
  rename_i link
  have hempty : c.LaidOut ⟨[], 0⟩ := ⟨by simp, by simp, by simp, rfl, by simp⟩
  have hfields := linkFields_laidOut (hinner link rfl) hc (hc.bound ref.id s hs) hempty s.source.fields
  refine Ensures.tryCatch (Ensures.bind (hfields.mono (fun layout c' _ h => ?_) fun d c' _ h => ?_))
  · obtain ⟨hc', hprog, hlayout⟩ := h
    have hs' := hprog.settled ref.id s hs (.inl (.head _))
    refine Ensures.modify ?_
    rw [mark_eq hs', hp]
    refine ⟨hc'.setStatus hs' hp (fun _ h => ?_) (by simp [Status.withLayout]), hprog.setStatus hs hp hid _, layout, ?_⟩
    · cases h
      exact hlayout
    · rw [layout?_setStatus_self hs' rfl]
      rfl
  obtain ⟨hc', hprog⟩ := h
  have hs' := hprog.settled ref.id s hs (.inl (.head _))
  refine Ensures.bind (Ensures.modify (Ensures.throw ?_))
  rw [mark_eq hs', hp]
  exact ⟨hc'.setStatus hs' hp (fun _ h => by cases h) fun _ => rfl, hprog.setStatus hs hp hid _,
    fun _ _ => ⟨_, structure?_setStatus_self hs', by simp [Status.asBroken]⟩⟩

theorem linkWithin_links (room : Nat) (stack : List Nat) : Links stack fun ref => linkWithin room stack ref.id := by
  induction room generalizing stack with
  | zero =>
    intro c ref hc hlists
    exact (linkStructure_links (by simp) hc hlists).mono (fun _ _ _ h => h) fun _ _ _ h => ⟨h.1, h.2.1⟩
  | succ room ih =>
    intro c ref hc hlists
    refine (linkStructure_links (fun link hlink => ?_) hc hlists).mono (fun _ _ _ h => h) fun _ _ _ h => ⟨h.1, h.2.1⟩
    grind

/-- The structure at a place was tried. -/
def SettledAt (c : Catalog) (id : Nat) : Prop := ∀ s, c.structure? id = some s → s.status ≠ .pending

/-- Every structure was tried. -/
def Settled (c : Catalog) : Prop := ∀ id, c.SettledAt id

/-- A structure that was tried is not tried again. -/
theorem Progresses.settledAt (h : Progresses stack c c') {id} (hid : c.SettledAt id) : c'.SettledAt id := by
  intro s' hs'
  cases hs : c.structure? id with
  | some s =>
    rw [h.settled id s hs (.inr (hid s hs))] at hs'
    cases hs'
    exact hid s' hs
  | none =>
    have hlt := (List.getElem?_eq_some_iff.1 hs').1
    rw [h.length] at hlt
    exact absurd (List.getElem?_eq_none_iff.1 hs) (by omega)

/-- Trying the structure at a place: the catalog stays in good order, and the structure is settled. -/
theorem linkAt_settles (hc : c.Sound) (id : Nat) :
    (c.linkAt id).1.Sound ∧ Progresses [] c (c.linkAt id).1 ∧ (c.linkAt id).1.SettledAt id := by
  unfold linkAt
  split
  · next hnone => exact ⟨hc, .refl [] c, fun s hs => by rw [hnone] at hs; cases hs⟩
  rename_i s hs
  split
  · next htried =>
    refine ⟨hc, .refl [] c, fun t ht => ?_⟩
    cases hs.symm.trans ht
    exact s.ne_pending_iff.2 (by simpa using htried)
  obtain rfl : s.ref.id = id := hc.placed id s hs
  obtain ⟨room, hroom⟩ : ∃ room, c.structures.length = room + 1 :=
    Nat.exists_eq_succ_of_ne_zero (Nat.ne_of_gt (Nat.zero_lt_of_lt (List.getElem?_eq_some_iff.1 hs).1))
  have hinner :
      ∀ link ∈ some (fun inner : StructureRef => linkWithin room [s.ref.id] inner.id), Links [s.ref.id] link := by
    rintro link ⟨⟩
    exact linkWithin_links room [s.ref.id]
  have hlink := linkStructure_links hinner hc ⟨_, hs, rfl⟩
  rw [hroom]
  split
  · next c' h =>
    obtain ⟨hc', hprog, layout, hl⟩ := hlink.of_ok h
    refine ⟨hc', hprog, fun s hs' hp => ?_⟩
    rw [layout?_of_pending hs' hp rfl] at hl
    cases hl
  rename_i d c' h
  obtain ⟨hc', hprog, hsettled⟩ := hlink.of_error h
  obtain ⟨t, ht, hstatus⟩ := hsettled (by simp) rfl
  refine ⟨hc', hprog, fun t' ht' => ?_⟩
  cases ht.symm.trans ht'
  exact hstatus

theorem linkEach_settles (hc : c.Sound) (ids : List Nat) :
    (linkEach c ids).1.Sound ∧ Progresses [] c (linkEach c ids).1 ∧ ∀ id ∈ ids, (linkEach c ids).1.SettledAt id := by
  induction ids generalizing c with
  | nil => exact ⟨hc, .refl [] c, by simp⟩
  | cons id rest ih =>
    obtain ⟨hc', hprog, hsettled⟩ := linkAt_settles hc id
    obtain ⟨hc'', hprog', hrest⟩ := ih hc'
    refine ⟨hc'', hprog.trans hprog', fun other hother => ?_⟩
    cases hother with
    | head => exact hprog'.settledAt hsettled
    | tail _ hother => exact hrest other hother

/-- **Linking.** Afterwards the catalog is in good order, has the same structures, and every one of them was tried. -/
theorem link_settles (hc : c.Sound) : c.link.1.Sound ∧ c.Extends c.link.1 ∧ c.link.1.Settled := by
  obtain ⟨hc', hprog, hsettled⟩ := linkEach_settles hc (List.range c.structures.length)
  refine ⟨hc', hprog.toExtends, fun id s hs => hsettled id ?_ s hs⟩
  rw [mem_range, ← hprog.length]
  exact (List.getElem?_eq_some_iff.1 hs).1

/-- **Types of values.** Once every structure was tried, what a written type comes down to can be used. -/
theorem Sound.resolveValue_usable (hc : c.Sound) (hsettled : c.Settled) {ty : TypeName} {t : TypeRef}
    (h : c.resolveValue [] ty = .ok t) : c.Usable t := by
  obtain ⟨written, hwritten, rfl⟩ := map_eq_ok h
  refine ⟨lowered_knows (resolve_knows hc.placed (by simp) hwritten), fun _ => lowered_deep, fun ref href => ?_⟩
  obtain ⟨bound, hbound, -⟩ | ⟨kind, rfl⟩ | ⟨id, s, hs, hf, rfl⟩ := resolve_cases hwritten
  · cases hbound
  · cases href
  · obtain rfl : s.ref = ref := by
      have := structure?_of_linear? href
      simpa [TypeRef.lowered, TypeRef.offset, TypeRef.structure?] using this
    have hid := hc.placed id s hs
    obtain hlinked | hfailed := s.ne_pending_iff.1 (hsettled id s hs)
    · obtain ⟨layout, hl⟩ := Option.isSome_iff_exists.1 hlinked
      exact ⟨layout, by rw [layout?, hid, hs]; exact hl⟩
    · exact absurd (hf.symm.trans hfailed) (by simp)

end Linking

end Catalog

end Lowering
