import Lowering.Json.Reader
import Lowering.Proofs.Json.Scan
/-!
# What readers make of the document of a value

A record is read from an object that has all of its fields (`Restores.record`), a list from an array of what its items
are read from (`Restores.items`), and a tagged alternative from an object that begins with its tag (`Restores.tagged`).
How many levels can be read is counted along with that.
-/

namespace Lowering.Json

open List

/-! ### Documents of values -/

mutual

theorem Doc.value_ofJson : ∀ j : Json, (Doc.ofJson j).value = .ok j
  | .null => rfl
  | .bool _ => rfl
  | .number _ => rfl
  | .string _ => rfl
  | .array items => by
    rw [ofJson, value, values_ofItems items]
    rfl
  | .object members => by
    rw [ofJson, value, memberValues_ofMembers members]
    rfl

theorem Doc.values_ofItems : ∀ items : List Json, Doc.values (Doc.ofItems items) = .ok items
  | [] => rfl
  | item :: rest => by
    rw [ofItems, values, value_ofJson item, values_ofItems rest]
    rfl

theorem Doc.memberValues_ofMembers :
    ∀ members : List (String × Json), Doc.memberValues (Doc.ofMembers members) = .ok members
  | [] => rfl
  | (key, item) :: rest => by
    rw [ofMembers, memberValues, value_ofJson item, memberValues_ofMembers rest]
    rfl

end

/-! ### Values and lists -/

/-- A value is read back from what is written for it, unless it nests deeper than can be read. -/
def Restores {α : Type} (levels : Nat) (read : Doc → Reading α) (j : Json) (a : α) : Prop :=
  j.depth ≤ levels → (read (Doc.ofJson j)).result = .ok a

theorem Reading.result_lift_bind {α β : Type} {x : Except Fault α} {a} (h : x = .ok a) (next : α → Reading β) :
    ((liftM x : Reading α) >>= next).result = (next a).result := by
  subst h
  rfl

variable {fields members : List (String × Json)} {levels : Nat}

namespace Restores

variable {α β : Type} {read : Doc → Reading α} {j : Json} {a : α}

theorem less (h : Restores (levels + 1) read j a) : Restores levels read j a :=
  fun hdepth => h (Nat.le_succ_of_le hdepth)

theorem none_left : Restores 0 read (.object members) a := by
  simp [Restores, depth]

theorem map (g : α → β) (h : Restores levels read j a) : Restores levels (fun doc => g <$> read doc) j (g a) := by
  intro hdepth
  rw [Reading.result_map, h hdepth]
  rfl

theorem items {f as} (hitems : js = as.map f) (h : ∀ a, Restores levels read (f a) a) :
    Restores (levels + 1) (readList read) (.array js) as := by
  subst hitems
  intro hdepth
  have hall : ∀ a ∈ as, (read (Doc.ofJson (f a))).result = .ok a := fun a ha =>
    h a ((depth_le_depthOfItems (mem_map_of_mem ha)).trans (Nat.le_of_succ_le_succ hdepth))
  clear h hdepth
  have hread : (readItems read (Doc.ofItems (as.map f))).result = .ok as := by
    induction as with
    | nil => rfl
    | cons a as ih =>
      simp only [map_cons, Doc.ofItems, readItems, Reading.result_bind, hall a mem_cons_self,
        ih fun b hb => hall b (mem_cons_of_mem a hb)]
      rfl
  simp only [Doc.ofJson, readList, Reading.result_bind, hread]
  rfl

theorem absent (read : Doc → Reading α) : Restores levels (readOption read) .null none := fun _ => rfl

theorem present (hj : j ≠ .null) (h : Restores levels read j a) : Restores levels (readOption read) j (some a) := by
  have hread : readOption read (Doc.ofJson j) = some <$> read (Doc.ofJson j) := by
    cases j with
    | null => exact absurd rfl hj
    | _ => rfl
  rw [Restores, hread]
  exact h.map some

end Restores

/-! ### Records -/

namespace Record

/-- Members among which certain fields are found. -/
def Finds (members : Members) (fields : List (String × Json)) : Prop :=
  ∀ f ∈ fields, ∃ place, members f.1 = some (place, Doc.ofJson f.2)

/-- A record with certain fields, which gives a value wherever they are found and do not nest too deep. -/
structure Restores {α : Type} (levels : Nat) (r : Record α) (fields : List (String × Json)) (a : α) : Prop where
  keys : r.keys = fields.map Prod.fst
  read : depthOfMembers fields ≤ levels → ∀ members, Finds members fields → (r.read members).result = .ok a

namespace Restores

variable {α β : Type} {others : List (String × Json)} {key : String} {j : Json} {a : α} {read : Doc → Reading α}

theorem required (h : Json.Restores levels read j a) : Restores levels (.required key read) [(key, j)] a := by
  simp only [Json.Restores] at h
  refine ⟨rfl, fun hdepth members hfound => ?_⟩
  obtain ⟨place, hplace⟩ := hfound _ mem_cons_self
  simp_all [depthOfMembers, Record.required, readAt, Except.mapError]

theorem optional (h : Json.Restores levels read j a) : Restores levels (.optional key absent read) [(key, j)] a := by
  simp only [Json.Restores] at h
  refine ⟨rfl, fun hdepth members hfound => ?_⟩
  obtain ⟨place, hplace⟩ := hfound _ mem_cons_self
  simp_all [depthOfMembers, Record.optional, readAt, Except.mapError]

theorem seq {g : α → β} (hf : Restores levels f fields g) (hr : Restores levels r others a) :
    Restores levels (f <*> r) (fields ++ others) (g a) := by
  have hdepths : depthOfMembers (fields ++ others) = max (depthOfMembers fields) (depthOfMembers others) := by
    clear hf
    induction fields <;> simp_all [depthOfMembers, Nat.max_assoc]
  refine ⟨?_, fun hdepth members hfound => ?_⟩
  · show f.keys ++ r.keys = _
    rw [hf.keys, hr.keys, map_append]
  · show both (f.read members).result (r.read members).result = _
    rw [hf.read (by omega) members fun field h => hfound field (mem_append_left _ h),
      hr.read (by omega) members fun field h => hfound field (mem_append_right _ h)]
    rfl

theorem map (g : α → β) {r : Record α} (hr : Restores levels r fields a) : Restores levels (g <$> r) fields (g a) := by
  have hpure : Restores levels (pure g) [] g := ⟨rfl, fun _ _ _ => rfl⟩
  exact hpure.seq hr

end Restores

theorem lookup_ofMembers (hnodup : (fields.map Prod.fst).Nodup) (h : (key, j) ∈ fields) (place : Nat) :
    ∃ place', lookup key place (Doc.ofMembers fields) = some (place', Doc.ofJson j) := by
  induction fields generalizing place with
  | nil => cases h
  | cons f rest ih =>
    obtain ⟨name, item⟩ := f
    rw [map_cons, nodup_cons] at hnodup
    rcases mem_cons.1 h with heq | hrest
    · simp_all [Doc.ofMembers, lookup]
    · have hne : name ≠ key := by
        grind
      obtain ⟨place', hplace⟩ := ih hnodup.2 hrest (place + 1)
      exact ⟨place', by simp [Doc.ofMembers, lookup, hne, hplace]⟩

/-- Members with the keys of a record, each of them once, are in order. -/
theorem disorder_ofMembers {keys seen} (hkeys : ∀ f ∈ fields, f.1 ∈ keys) (hnodup : (fields.map Prod.fst).Nodup)
    (hseen : ∀ f ∈ fields, f.1 ∉ seen) (place : Nat) : disorder keys seen place (Doc.ofMembers fields) none = none := by
  induction fields generalizing seen place with
  | nil => rfl
  | cons f rest ih =>
    obtain ⟨name, item⟩ := f
    rw [map_cons, nodup_cons] at hnodup
    have hnew : ∀ f ∈ rest, f.1 ∉ name :: seen := by
      grind
    have hrest := ih (fun f hf => hkeys f (.tail _ hf)) hnodup.2 hnew (place + 1)
    have hname : name ∈ keys := hkeys (name, item) mem_cons_self
    have hfirst : name ∉ seen := hseen (name, item) mem_cons_self
    simp [Doc.ofMembers, disorder, hname, hfirst, hrest]

end Record

/-- A record is read from an object that has its fields and no others. -/
theorem Restores.record {α : Type} {r : Record α} {a} (h : r.Restores levels fields a) (hfields : fields = members)
    (hnodup : (members.map Prod.fst).Nodup) (mode : Mode) : Restores (levels + 1) (r.run mode) (.object members) a := by
  subst hfields
  intro hdepth
  have hfound : Record.Finds (fun key => Record.lookup key 0 (Doc.ofMembers fields)) fields :=
    fun f hf => Record.lookup_ofMembers hnodup hf 0
  have horder : Record.disorder r.keys [] 0 (Doc.ofMembers fields) none = none :=
    Record.disorder_ofMembers (fun f hf => h.keys ▸ mem_map_of_mem hf) hnodup (by simp) 0
  rw [depth, Nat.add_le_add_iff_right] at hdepth
  rw [Doc.ofJson, Record.run, Record.result_conclude, h.read hdepth _ hfound, horder]
  rfl

/-! ### Tagged alternatives -/

theorem splitTag_ofMembers (mode : Mode) (names : List String) (tag : Option Nat) (h : tagKey ∉ members.map Prod.fst) :
    splitTag mode names tag (Doc.ofMembers members) = .ok (tag, Doc.ofMembers members) := by
  induction members with
  | nil => rfl
  | cons member rest ih =>
    obtain ⟨key, item⟩ := member
    rw [map_cons, mem_cons, not_or] at h
    have hkey : key ≠ tagKey := fun e => h.1 e.symm
    simp only [Doc.ofMembers, splitTag, ok_bind, if_neg hkey, Doc.value_ofJson, ih h.2]
    rfl

theorem readTagged_ofJson (mode : Mode) (htag : names.idxOf? tag = some index)
    (hmembers : tagKey ∉ members.map Prod.fst) :
    readTagged mode names (Doc.ofJson (.object ((tagKey, .string tag) :: members))) =
      .ok (index, Doc.ofJson (.object members)) := by
  have hsplit := splitTag_ofMembers mode names (some index) hmembers
  simp only [Doc.ofJson, Doc.ofMembers, readTagged, splitTag, ok_bind, if_true, readTag, htag, hsplit]
  rfl

theorem Restores.tagged {α : Type} (mode : Mode) {names tag index next} {a : α}
    (htag : names.idxOf? tag = some index) (hmembers : tagKey ∉ members.map Prod.fst)
    (h : Restores levels (fun doc => next (index, doc)) (.object members) a) :
    Restores levels (fun doc => (liftM (readTagged mode names doc) : Reading _) >>= next)
      (.object ((tagKey, .string tag) :: members)) a := by
  intro hdepth
  have h := h (Nat.le_trans (by simp [depth, depthOfMembers]) hdepth)
  rw [Reading.result_lift_bind (readTagged_ofJson mode htag hmembers), h]

/-- A tagged alternative with fields of its own. -/
theorem Restores.tagged_record {α : Type} (mode : Mode) {names tag index next} {a : α} {r : Record α}
    (htag : names.idxOf? tag = some index) (hnext : (fun doc => next (index, doc)) = r.run .settled)
    (hnodup : (tagKey :: members.map Prod.fst).Nodup) (hfields : fields = members) (h : r.Restores levels fields a) :
    Restores (levels + 1) (fun doc => (liftM (readTagged mode names doc) : Reading _) >>= next)
      (.object ((tagKey, .string tag) :: members)) a := by
  obtain ⟨hmembers, hnodup⟩ := nodup_cons.1 hnodup
  refine .tagged mode htag hmembers ?_
  rw [hnext]
  exact .record h hfields hnodup _

end Lowering.Json
