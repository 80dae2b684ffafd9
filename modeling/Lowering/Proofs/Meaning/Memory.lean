import Lowering.Proofs.Machine.Layout
import Lowering.Proofs.Machine.Memory
import Lowering.Proofs.Meaning.Scalar
import Lowering.Proofs.Types.Direct
/-!
# Values in memory

A structure lies in memory as its fields one after another. Where memory holds a structure it holds each field, and
writing a field leaves the structure with that field replaced: all other fields lie elsewhere.
-/

namespace Lowering.Meaning

open List

namespace Value

mutual

/-- The bytes that memory holds for a value. -/
def bytes : Value → List UInt8
  | integer kind n => Word.toBytes kind.size (word (integer kind n))
  | float kind x => Word.toBytes kind.size (word (float kind x))
  | boolean b => Word.toBytes Primitive.bool.size (word (boolean b))
  | struct _ fields => allBytes fields

def allBytes : List Value → List UInt8
  | [] => []
  | v :: rest => bytes v ++ allBytes rest

end

/-- The bytes before a field. -/
def offset (fields : List Value) (index : Nat) : Nat := (allBytes (fields.take index)).length

theorem length_allBytes (fields : List Value) :
    (allBytes fields).length = (fields.map fun v => v.bytes.length).sum := by
  induction fields with
  | nil => rfl
  | cons v rest ih => rw [allBytes, length_append, ih, map_cons, sum_cons]

@[simp] theorem offset_zero (fields : List Value) : offset fields 0 = 0 := rfl

@[simp] theorem offset_succ (v : Value) (rest : List Value) (index : Nat) :
    offset (v :: rest) (index + 1) = v.bytes.length + offset rest index := by
  rw [offset, take_succ_cons, allBytes, length_append, offset]

theorem bytes_of_primitive {v : Value} (h : v.ty = .primitive kind) : v.bytes = Word.toBytes kind.size v.word := by
  cases v with
  | integer | float | boolean => cases h; rw [bytes]
  | struct => cases h

variable {fields : List Value} {index : Nat}

theorem offset_add_le (h : fields[index]? = some v) :
    offset fields index + v.bytes.length ≤ (allBytes fields).length ∧
      ∀ later, index < later → offset fields index + v.bytes.length ≤ offset fields later := by
  induction fields generalizing index with
  | nil => cases h
  | cons u rest ih =>
    rw [allBytes, length_append]
    rcases index with _ | index
    · cases h
      refine ⟨by simp, fun later hlater => ?_⟩
      obtain ⟨later, rfl⟩ := Nat.exists_eq_succ_of_ne_zero (Nat.ne_of_gt hlater)
      simp
    obtain ⟨hinside, hbefore⟩ := ih h
    refine ⟨by simp only [offset_succ]; omega, fun later hlater => ?_⟩
    obtain ⟨later, rfl⟩ := Nat.exists_eq_succ_of_ne_zero (Nat.ne_of_gt ((Nat.zero_le _).trans_lt hlater))
    grind [offset_succ]

theorem offset_set (h : fields[index]? = some old) (hsize : new.bytes.length = old.bytes.length)
    (i : Nat) : offset (fields.set index new) i = offset fields i := by
  have hsizes : (fields.set index new).map (fun v => v.bytes.length) = fields.map fun v => v.bytes.length := by
    obtain ⟨hindex, rfl⟩ := List.getElem?_eq_some_iff.1 h
    refine ext_getElem (by simp) fun i _ _ => ?_
    simp_all [getElem_set]
  simp [offset, length_allBytes, hsizes]

theorem length_allBytes_set (h : fields[index]? = some old)
    (hsize : new.bytes.length = old.bytes.length) :
    (allBytes (fields.set index new)).length = (allBytes fields).length := by
  have := offset_set h hsize fields.length
  rwa [offset, offset, take_length, ← length_set (i := index) (a := new), take_length] at this

end Value

variable {c : Catalog} {v : Value}

theorem sum_sizes (htypes : fields.map Value.ty = slots.map Field.ty)
    (h : ∀ v ∈ fields, c.sizeOf? v.ty = some v.bytes.length) : c.fieldsSize slots = (Value.allBytes fields).length := by
  rw [Value.length_allBytes, Catalog.fieldsSize]
  have hslots :
      slots.map (fun f => (c.sizeOf? f.ty).getD 0) = (slots.map Field.ty).map fun t => (c.sizeOf? t).getD 0 := by
    rw [map_map]
    rfl
  rw [hslots, ← htypes, map_map]
  refine congrArg List.sum (map_congr_left fun v hv => ?_)
  simp_all

/-- **The size of a value** is the size of its type. -/
theorem Value.Fits.size (hc : c.Sound) (hv : v.Fits c) : c.sizeOf? v.ty = some v.bytes.length := by
  induction hv with
  | integer | float | boolean => rw [bytes, Word.length_toBytes]; rfl
  | @struct ref layout fields hlists hlayout htypes _ ih =>
    have hsize := (hc.laidOut ref layout hlayout).size
    simp [ty, bytes, Catalog.sizeOf?, show TypeRef.linear? ⟨.struct ref, 1⟩ = some ref from rfl, hlayout,
      ← sum_sizes htypes ih, ← hsize]

theorem Value.Fits.usable (hv : v.Fits c) : c.Usable v.ty := by
  cases hv with
  | integer | float | boolean => exact ⟨nofun, nofun, nofun⟩
  | struct hlists hlayout =>
    refine ⟨?_, ?_, ?_⟩
    · rintro _ ⟨⟩
      exact hlists
    · rintro _ ⟨⟩
      exact Nat.one_ne_zero
    · rintro _ ⟨⟩
      exact ⟨_, hlayout⟩

theorem Value.Fits.sizeOf (hc : c.Sound) (hm : c.DeclaredIn m) (hv : v.Fits c) :
    Lowering.sizeOf m v.ty.storageType = Memory.fit v.bytes.length := by
  rw [Catalog.sizeOf_storageType hc hm hv.usable, hv.size hc]
  rfl

theorem fieldsSize_take (hc : c.Sound) {layout : Layout}
    (htypes : fields.map Value.ty = layout.fields.map Field.ty) (hfields : ∀ v ∈ fields, v.Fits c) (index : Nat) :
    c.fieldsSize (layout.fields.take index) = Value.offset fields index := by
  refine sum_sizes ?_ fun v hv => (hfields v (mem_of_mem_take hv)).size hc
  simp_all

/-! ### Memory that holds a value -/

end Lowering.Meaning
namespace Lowering

open Meaning

/-- Memory holds a value at an address. -/
structure Memory.Holds (M : Memory) (address : Nat) (v : Value) : Prop where
  has : M.Has address v.bytes.length
  bytes : M.slice address v.bytes.length = v.bytes

variable {i : Nat} {t : TypeRef}

namespace Memory.Holds

variable {M M' : Memory} {a : Nat} {v w : Value} {ref : StructureRef} {fields : List Value}

theorem congr (h : M.Holds a v) (hsize : M.size ≤ M'.size)
    (hbytes : ∀ i, a ≤ i → i < a + v.bytes.length → M'.byteAt i = M.byteAt i) : M'.Holds a v where
  has := ⟨h.has.guarded, h.has.allocated.trans hsize⟩
  bytes := (Memory.slice_congr hbytes).trans h.bytes

theorem slice_allBytes : M.slice a (Value.allBytes fields).length = Value.allBytes fields ↔
    ∀ i v, fields[i]? = some v → M.slice (a + Value.offset fields i) v.bytes.length = v.bytes := by
  induction fields generalizing a with
  | nil => simp [Value.allBytes, Memory.slice]
  | cons u rest ih =>
    rw [Value.allBytes, List.length_append, Memory.slice_append]
    constructor
    · intro h i v hv
      obtain ⟨hu, hrest⟩ := List.append_inj h (Memory.length_slice ..)
      cases i with
      | zero => cases hv; simpa using hu
      | succ i => simpa [Nat.add_assoc] using ih.1 hrest i v hv
    intro h
    rw [show M.slice a u.bytes.length = u.bytes by simpa using h 0 u rfl]
    refine congrArg (u.bytes ++ ·) (ih.2 fun i v hv => ?_)
    simpa [Nat.add_assoc] using h (i + 1) v hv

/-- **A structure is there when its fields are.** -/
theorem struct_iff : M.Holds a (.struct ref fields) ↔ M.Has a (Value.allBytes fields).length ∧
    ∀ i v, fields[i]? = some v → M.Holds (a + Value.offset fields i) v := by
  constructor
  · intro h
    have hhas : M.Has a (Value.allBytes fields).length := by simpa [Value.bytes] using h.has
    have hbytes : M.slice a (Value.allBytes fields).length = Value.allBytes fields := by
      simpa [Value.bytes] using h.bytes
    refine ⟨hhas, fun i v hv => ⟨⟨?_, ?_⟩, slice_allBytes.1 hbytes i v hv⟩⟩
    · exact hhas.guarded.trans (Nat.le_add_right ..)
    have := (Value.offset_add_le hv).1
    have := hhas.allocated
    omega
  rintro ⟨hhas, hfields⟩
  refine ⟨by simpa [Value.bytes] using hhas, ?_⟩
  simpa [Value.bytes] using slice_allBytes.2 fun i v hv => (hfields i v hv).bytes

theorem field (h : M.Holds a (.struct ref fields)) (hv : fields[i]? = some v) :
    M.Holds (a + Value.offset fields i) v :=
  (struct_iff.1 h).2 i v hv

/-- **Writing a field** leaves the structure with that field replaced. -/
theorem set_field (h : M.Holds a (.struct ref fields)) (hv : fields[i]? = some v)
    (hlen : w.bytes.length = v.bytes.length) (hsize : M.size ≤ M'.size)
    (hbytes : ∀ b, a ≤ b → b < a + (Value.allBytes fields).length →
      ¬ (a + Value.offset fields i ≤ b ∧ b < a + Value.offset fields i + v.bytes.length) → M'.byteAt b = M.byteAt b)
    (hw : M'.Holds (a + Value.offset fields i) w) : M'.Holds a (.struct ref (fields.set i w)) := by
  obtain ⟨hhas, hfields⟩ := struct_iff.1 h
  refine struct_iff.2 ⟨⟨hhas.guarded, ?_⟩, fun j u hu => ?_⟩
  · rw [Value.length_allBytes_set hv hlen]
    exact hhas.allocated.trans hsize
  rw [Value.offset_set hv hlen]
  rw [List.getElem?_set] at hu
  split at hu
  · simp_all
  rename_i hij
  -- fields before and behind this one lie elsewhere
  refine (hfields j u hu).congr hsize fun b hlow hhigh => ?_
  obtain ⟨hinside, hbefore⟩ := Value.offset_add_le hu
  obtain ⟨-, hbefore'⟩ := Value.offset_add_le hv
  grind

end Memory.Holds

/-! ### Parts of structures -/

namespace Meaning

/-- Steps lead from a value to a part of it that lies `distance` bytes behind its start. -/
inductive Value.Goes : Value → List Step → (distance : Nat) → Value → Prop where
  | here (v : Value) : Goes v [] 0 v
  | field {ref : StructureRef} {fields : List Value} {step : Step} {steps : List Step} {distance : Nat} {u w : Value}
      (hstruct : step.struct = ref) (hu : fields[step.index]? = some u) (hty : step.ty = u.ty)
      (h : Goes u steps distance w) : Goes (struct ref fields) (step :: steps) (offset fields step.index + distance) w

variable {v : Value} {c : Catalog}

/-- A part of a value lies inside it, and is there when the value is. -/
theorem Value.Goes.holds (h : v.Goes steps distance w) {M : Memory} (hv : M.Holds a v) :
    M.Holds (a + distance) w ∧ distance + w.bytes.length ≤ v.bytes.length := by
  induction h generalizing a with
  | here => exact ⟨hv, Nat.le_of_eq (Nat.zero_add _)⟩
  | field hstruct hu hty h ih =>
    obtain ⟨hw, hinside⟩ := ih (hv.field hu)
    refine ⟨by rwa [← Nat.add_assoc], ?_⟩
    rw [Value.bytes]
    have := (Value.offset_add_le hu).1
    omega

/-- Where accesses lead to in a value of a structure: the steps they are, the part of the value that is there, and what
becomes of the value when that part is replaced. -/
structure Reaches (c : Catalog) (v : Value) (accesses : List Access) (steps : List Step) (t : TypeRef) (distance : Nat)
    (w : Value) : Prop where
  goes : v.Goes steps distance w
  short : steps = [] → accesses = []
  ty : w.ty = t
  fits : w.Fits c
  read : v.at? c accesses = some w
  write : ∀ new, new.Fits c → new.ty = t → ∃ v', v.put? c accesses new = some v' ∧ v'.Fits c ∧ v'.ty = v.ty ∧
    ∀ {M M' : Memory} {a : Nat}, M.Holds a v → M.size ≤ M'.size →
      (∀ b, a ≤ b → b < a + v.bytes.length → ¬ (a + distance ≤ b ∧ b < a + distance + w.bytes.length) →
        M'.byteAt b = M.byteAt b) →
      M'.Holds (a + distance) new → M'.Holds a v'

theorem FieldKey.getElem?_of_lookup {key : FieldKey} (h : key.lookup layout = some (index, t)) :
    ∃ field, layout.fields[index]? = some field ∧ field.ty = t := by
  cases key with
  | byName name =>
    simp_all [FieldKey.lookup, Layout.named?, Option.bind_eq_some_iff]
  | byIndex i =>
    grind [FieldKey.lookup, Layout.at?]

theorem Value.Fits.field (hv : v.Fits c) {key span step} (h : c.fieldOf v.ty key span = .ok step) :
    ∃ fields u, v = .struct step.struct fields ∧ fields[step.index]? = some u ∧ step.ty = u.ty ∧ u.Fits c ∧
      (c.layout? step.struct).bind key.lookup = some (step.index, step.ty) := by
  cases hv with
  | integer | float | boolean => cases h
  | @struct ref layout fields hlists hlayout htypes hfields =>
    simp only [Catalog.fieldOf, show TypeRef.structure? (Value.struct ref fields).ty = some ref from rfl] at h
    rcases hlook : (c.layout? ref).bind key.lookup with _ | found
    · rw [hlook] at h; cases h
    obtain ⟨index, t⟩ := found
    rw [hlook] at h
    cases h
    rw [hlayout] at hlook
    have hfound : key.lookup layout = some (index, t) := hlook
    obtain ⟨slot, hslot, rfl⟩ := FieldKey.getElem?_of_lookup hfound
    have hmap : (fields.map Value.ty)[index]? = some slot.ty := by simp_all
    grind

/-- A field may be replaced by a value of its type. -/
theorem Value.Fits.set_field (hv : (Value.struct ref fields).Fits c) (hu : fields[i]? = some u)
    (hw : w.Fits c) (hty : w.ty = u.ty) : (Value.struct ref (fields.set i w)).Fits c := by
  cases hv with
  | struct hlists hlayout htypes hfields =>
    refine .struct hlists hlayout ?_ fun x hx => ?_
    · rw [← htypes, List.map_set, hty]
      obtain ⟨hi, rfl⟩ := List.getElem?_eq_some_iff.1 hu
      have hi' : i < (fields.map Value.ty).length := by rwa [List.length_map]
      have : fields[i].ty = (fields.map Value.ty)[i] := (List.getElem_map ..).symm
      rw [this, List.set_getElem_self]
    · grind

/-- **A place inside a value.** -/
theorem reaches_of_follow (hc : c.Sound) (hv : v.Fits c) {accesses steps}
    (h : c.follow v.ty accesses = .ok (steps, t)) : ∃ distance w, Reaches c v accesses steps t distance w := by
  induction accesses generalizing v steps with
  | nil =>
    cases h
    refine ⟨0, v, .here v, fun _ => rfl, rfl,
      hv, by rw [Value.at?], fun new hnew hty => ⟨new, by rw [Value.put?], hnew, hty, ?_⟩⟩
    simp
  | cons access rest ih =>
    rw [Catalog.follow] at h
    obtain ⟨key, hkey, h⟩ := bind_eq_ok h
    obtain ⟨step, hstep, h⟩ := bind_eq_ok h
    obtain ⟨⟨steps, t⟩, hrest, h⟩ := bind_eq_ok h
    cases h
    obtain ⟨fields, u, rfl, hu, hty, hfits, hlook⟩ := hv.field hstep
    have hindex : fieldIndex c step.struct access = some step.index := by
      cases hlayout : c.layout? step.struct with
      | none => simp_all
      | some layout =>
        simp_all [fieldIndex, Except.toOption]
    obtain ⟨distance, w, hreach⟩ := ih hfits (hty ▸ hrest)
    refine ⟨_, w, .field rfl hu hty hreach.goes, fun hnil => absurd hnil (List.cons_ne_nil _ _), hreach.ty,
      hreach.fits, ?_, fun new hnew hnewty => ?_⟩
    · simp [Value.at?, hindex, hu, hreach.read]
    obtain ⟨u', hput, hfits', hty', hmem⟩ := hreach.write new hnew hnewty
    refine ⟨.struct step.struct (fields.set step.index u'), ?_, hv.set_field hu hfits' hty', rfl, ?_⟩
    · simp [Value.put?, hindex, hu, hput]
    intro M M' a hholds hsize hbytes hnewholds
    have hlen : u'.bytes.length = u.bytes.length := by
      have := hfits'.size hc
      rw [hty', hfits.size hc] at this
      exact (Option.some.inj this).symm
    obtain ⟨-, hinside⟩ := hreach.goes.holds (hholds.field hu)
    have hfield := (Value.offset_add_le hu).1
    rw [Value.bytes] at hbytes
    refine hholds.set_field hu hlen hsize (fun b hlow hhigh hout => ?_)
      (hmem (hholds.field hu) hsize (fun b hlow hhigh hout => ?_) (by rwa [Nat.add_assoc]))
    · exact hbytes b hlow hhigh (by omega)
    · exact hbytes b (by omega) (by omega) (by omega)

end Meaning

/-! ### Fresh memory -/

namespace Meaning

theorem allBytes_zero (h : ∀ v ∈ fields, ∀ b ∈ v.bytes, b = 0) : ∀ b ∈ Value.allBytes fields, b = 0 := by
  induction fields with
  | nil => simp [Value.allBytes]
  | cons v rest ih =>
    obtain ⟨hv, hrest⟩ := List.forall_mem_cons.1 h
    rw [Value.allBytes, List.forall_mem_append]
    exact ⟨hv, ih hrest⟩

/-- The value of a built-in type that all bytes being zero stands for. -/
theorem blank_primitive (c : Catalog) (nesting : Nat) (h : kind.category ≠ .void) :
    ∃ v, blank c (nesting + 1) (.primitive kind) = some v ∧ v.ty = .primitive kind ∧ v.Fits c ∧
      ∀ b ∈ v.bytes, b = 0 := by
  have hprimitive : (TypeRef.primitive kind).primitive? = some kind := rfl
  have hlin : (TypeRef.primitive kind).linear? = none := rfl
  have hinteger (hkind : kind.category = .int ∨ kind.category = .string) :
      (Value.integer kind 0).Fits c ∧ ∀ b ∈ (Value.integer kind 0).bytes, b = 0 := by
    have hzero : kind.InRange 0 := by cases kind <;> rfl
    have hword : (Value.integer kind 0).word = 0 := (Primitive.encode_eq_zero_iff hzero).2 rfl
    refine ⟨.integer hkind hzero, ?_⟩
    rw [Value.bytes, hword]
    exact Word.toBytes_zero _
  simp only [blank, hprimitive, hlin]
  cases hcat : kind.category with
  | int => exact ⟨_, rfl, rfl, hinteger (.inl hcat)⟩
  | string => exact ⟨_, rfl, rfl, hinteger (.inr hcat)⟩
  | float =>
    refine ⟨_, rfl, rfl, .float hcat ?_, ?_⟩
    · cases kind <;> decide
    have hword : (Value.float kind .zero).word = 0 := by cases kind <;> decide
    rw [Value.bytes, hword]
    exact Word.toBytes_zero _
  | bool =>
    have hkind : kind = .bool := by cases kind <;> first | rfl | cases hcat
    subst hkind
    exact ⟨_, rfl, rfl, .boolean false, Word.toBytes_zero _⟩
  | void => exact absurd hcat h

theorem category_ne_void (h : (TypeRef.primitive kind).isVoid = false) : kind.category ≠ .void := by
  rintro hcat
  cases kind <;> cases hcat
  exact absurd h (by decide)

/-- **Fresh memory** holds a value of every type. -/
theorem exists_blank (hc : c.Sound) (hdir : c.Direct) (hrank : c.Ranked rank)
    (ht : c.Usable t) (hvoid : t.isVoid = false) (htd : t.Direct)
    (hnesting : ∀ ref, t.linear? = some ref → rank ref.id < nesting) :
    ∃ v, blank c (nesting + 1) t = some v ∧ v.ty = t ∧ v.Fits c ∧ ∀ b ∈ v.bytes, b = 0 := by
  induction nesting generalizing t with
  | zero =>
    obtain ⟨kind, rfl⟩ | ⟨ref, rfl⟩ := htd
    · exact blank_primitive c 0 (category_ne_void hvoid)
    · exact absurd (hnesting ref rfl) (Nat.not_lt_zero _)
  | succ nesting ih =>
    obtain ⟨kind, rfl⟩ | ⟨ref, rfl⟩ := htd
    · exact blank_primitive c _ (category_ne_void hvoid)
    obtain ⟨layout, hlayout⟩ := ht.linked ref rfl
    have hlaidOut := hc.laidOut ref layout hlayout
    have hfields : ∀ fields : List Field, (∀ f ∈ fields, f ∈ layout.fields) →
        ∃ vs, (fields.mapM fun f => blank c (nesting + 1) f.ty) = some vs ∧ vs.map Value.ty = fields.map Field.ty ∧
          ∀ v ∈ vs, v.Fits c ∧ ∀ b ∈ v.bytes, b = 0 := by
      intro fields hsub
      induction fields with
      | nil => simp
      | cons f rest ihrest =>
        obtain ⟨hf, hsub⟩ := List.forall_mem_cons.1 hsub
        obtain ⟨vs, hvs, htypes, hfits⟩ := ihrest hsub
        obtain ⟨v, hv, hty, hvfits, hzero⟩ := ih (hlaidOut.usable f hf) (hlaidOut.notVoid f hf)
          (hdir ref layout hlayout f hf) fun inner hinner =>
            ((hrank ref layout hlayout).2 f hf inner hinner).trans_le (Nat.le_of_lt_succ (hnesting ref rfl))
        refine ⟨v :: vs, ?_, by simp_all,
          List.forall_mem_cons.2 ⟨⟨hvfits, hzero⟩, hfits⟩⟩
        simp_all
    obtain ⟨vs, hvs, htypes, hfits⟩ := hfields layout.fields fun _ h => h
    refine ⟨.struct ref vs, ?_, rfl, .struct (ht.known ref rfl) hlayout htypes fun v hv => (hfits v hv).1, ?_⟩
    · rw [blank]
      simp [show TypeRef.linear? ⟨.struct ref, 1⟩ = some ref from rfl, hlayout, hvs]
    · rw [Value.bytes]
      exact allBytes_zero fun v hv => (hfits v hv).2

/-- As many structures as there are can be inside each other. -/
theorem exists_blank_of_usable (hc : c.Sound) (hdir : c.Direct) (ht : c.Usable t)
    (hvoid : t.isVoid = false) (htd : t.Direct) :
    ∃ v, blank c (c.structures.length + 1) t = some v ∧ v.ty = t ∧ v.Fits c ∧ ∀ b ∈ v.bytes, b = 0 := by
  obtain ⟨rank, hrank⟩ := hc.ranked
  refine exists_blank hc hdir hrank ht hvoid htd fun ref href => ?_
  obtain ⟨layout, hlayout⟩ := ht.linked ref href
  exact Nat.lt_of_lt_of_le (hrank ref layout hlayout).1 List.countP_le_length

end Meaning

theorem Memory.Holds.of_zero {M : Memory} (hhas : M.Has a v.bytes.length)
    (hv : ∀ b ∈ v.bytes, b = 0) (hbytes : ∀ b, a ≤ b → b < a + v.bytes.length → M.byteAt b = 0) : M.Holds a v := by
  refine ⟨hhas, Memory.slice_eq_iff.2 fun i hi => ?_⟩
  simp [hv _ (List.getElem_mem hi), *]

end Lowering
