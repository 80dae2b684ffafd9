import Lowering.Proofs.Json.Reader
import Lowering.Tree.Decode
import Lowering.Tree.Encode
/-!
# A syntax tree is read back from what is written for it

Every node is read from the document of its own JSON form, in any mode (`expressions_restored` and its like). A reader
that can meet itself again needs one level for every node. Tagged nodes share their object with the node inside them, so
a place, a call or a written type is read with one level less than its object has; the arrays below it make up for that.

With the scanner (`Json.scan_write`) the same holds of texts. `SourceUnit.read_written` puts both together.
-/

namespace Lowering

open Json

/-! ### Leaves -/

section Leaves

variable {levels : Nat}

theorem readUInt64_restores (n : UInt64) : Restores levels (nameless readUInt64) (.ofUInt64 n) n := fun _ => rfl

theorem readBool_restores (b : Bool) : Restores levels (nameless readBool) (.bool b) b := fun _ => rfl

theorem spanField_restores (s : Span) : Record.Restores levels (spanField mode) [("span", s.toJson)] s := by
  have hspan : Restores (levels + 1) (Span.ofDoc mode) s.toJson s :=
    .record (.seq (.map _ (.required (readUInt64_restores s.start))) (.required (readUInt64_restores s.stop))) rfl
      (by simp) mode
  exact .optional hspan.less

theorem Identifier.restores (i : Identifier) : Restores levels Identifier.ofDoc i.toJson i := by
  have hname : Restores levels readName (.string i.symbol) i.symbol := fun _ => rfl
  have hrecord : Restores (levels + 1)
      (Record.run (Identifier.mk <$> .required "symbol" readName <*> spanField .settled) .settled) i.toJson i :=
    .record (.seq (.map _ (.required hname)) (spanField_restores i.span)) rfl (by simp) _
  exact fun hdepth => (Reading.result_lift_bind (Doc.value_ofJson i.toJson) _).trans (hrecord.less hdepth)

theorem Literal.restores (l : Literal) : Restores levels (nameless Literal.ofDoc) l.toJson l := by
  intro _
  cases l with
  | integer n =>
    show (readInt64 (Doc.ofJson (.ofInt64 n))).map Literal.integer = .ok (.integer n)
    rw [Json.ofInt64, Number.ofInt64]
    split
    · rfl
    · next hsign =>
      have hword : n.toUInt64 < 0x8000000000000000 := by
        have htop := n.toInt_lt
        rw [UInt64.lt_iff_toNat_lt, Int64.toNat_toUInt64_of_le (Int64.not_lt.1 hsign)]
        show n.toInt.toNat < 9223372036854775808
        omega
      rw [Doc.ofJson, readInt64, if_pos hword, Int64.toInt64_toUInt64]
      rfl
  | _ => rfl

theorem Constant.restores (c : Constant) : Restores (levels + 1) Constant.ofDoc (.object c.members) c :=
  .record (.seq (.map _ (.required c.value.restores)) (spanField_restores c.span)) rfl (by simp) _

theorem ArithmeticOperator.restores (op : ArithmeticOperator) :
    Restores levels (nameless ArithmeticOperator.ofDoc) (.string op.word) op :=
  fun _ => by cases op <;> rfl

theorem CompareOperator.restores (op : CompareOperator) :
    Restores levels (nameless CompareOperator.ofDoc) (.string op.word) op :=
  fun _ => by cases op <;> rfl

end Leaves

/-! ### Items and tagged nodes -/

theorem TemplateArgument.toJsons_eq (arguments : List TemplateArgument) :
    TemplateArgument.toJsons arguments = arguments.map TemplateArgument.toJson := by
  induction arguments <;> simp_all [TemplateArgument.toJsons]

theorem Expr.toJsons_eq (es : List Expr) : Expr.toJsons es = es.map Expr.toJson := by
  induction es <;> simp_all [Expr.toJsons]

theorem Access.toJsons_eq (accesses : List Access) : Access.toJsons accesses = accesses.map Access.toJson := by
  induction accesses <;> simp_all [Access.toJsons]

theorem Statement.toJsons_eq (statements : List Statement) :
    Statement.toJsons statements = statements.map Statement.toJson := by
  induction statements <;> simp_all [Statement.toJsons]

theorem Clause.toJsons_eq (clauses : List Clause) : Clause.toJsons clauses = clauses.map Clause.toJson := by
  induction clauses <;> simp_all [Clause.toJsons]

theorem Constant.tagKey_not_mem (c : Constant) : tagKey ∉ c.members.map Prod.fst := by
  simp [Constant.members, tagKey]

theorem TypeName.tagKey_not_mem (ty : TypeName) : tagKey ∉ ty.members.map Prod.fst := by
  cases ty
  simp [TypeName.members, tagKey]

theorem Place.tagKey_not_mem (p : Place) : tagKey ∉ p.members.map Prod.fst := by
  cases p
  simp [Place.members, tagKey]

theorem Call.tagKey_not_mem (c : Call) : tagKey ∉ c.members.map Prod.fst := by
  cases c
  simp [Call.members, tagKey]

/-! ### Written types -/

theorem writtenTypes_restored (levels : Nat) :
    (∀ mode (ty : TypeName), Restores (levels + 1) (TypeName.ofDoc levels mode) ty.toJson ty) ∧
    ∀ mode (a : TemplateArgument), Restores levels (TemplateArgument.ofDoc levels mode) a.toJson a := by
  induction levels with
  | zero =>
    refine ⟨fun _ ty hdepth => ?_, fun _ a => ?_⟩
    · cases ty
      simp [TypeName.toJson, TypeName.members, Json.depth, Json.depthOfMembers] at hdepth
    · cases a <;> exact .none_left
  | succ levels ih =>
    obtain ⟨hty, harg⟩ := ih
    refine ⟨fun mode ty => ?_, fun mode a => ?_⟩
    · obtain ⟨depth, name, arguments, span⟩ := ty
      exact Restores.record
        (.seq (.seq (.seq (.map _ (.optional (readUInt64_restores depth))) (.required name.restores))
          (.optional (.items (TemplateArgument.toJsons_eq arguments) (harg mode)))) (spanField_restores span))
        rfl (by simp) mode
    cases a with
    | type ty => exact .tagged mode rfl ty.tagKey_not_mem ((hty _ ty).map _)
    | constant c => exact .tagged mode rfl c.tagKey_not_mem (c.restores.map _)

/-! ### Expressions -/

theorem expressions_restored (levels : Nat) :
    (∀ mode (e : Expr), Restores levels (Expr.ofDoc levels mode) e.toJson e) ∧
    (∀ mode (p : Place), Restores (levels + 1) (Place.ofDoc levels mode) (.object p.members) p) ∧
    (∀ mode (a : Access), Restores levels (Access.ofDoc levels mode) a.toJson a) ∧
    ∀ mode (c : Call), Restores (levels + 1) (Call.ofDoc levels mode) (.object c.members) c := by
  induction levels with
  | zero =>
    refine ⟨fun _ e => ?_, fun _ p hdepth => ?_, fun _ a => ?_, fun _ c hdepth => ?_⟩
    · cases e <;> exact .none_left
    · cases p
      simp [Place.members, Json.depth, Json.depthOfMembers] at hdepth
    · cases a <;> exact .none_left
    · cases c
      simp [Call.members, Json.depth, Json.depthOfMembers] at hdepth
  | succ levels ih =>
    obtain ⟨hexpr, hplace, haccess, hcall⟩ := ih
    refine ⟨fun mode e => ?_, fun mode p => ?_, fun mode a => ?_, fun mode c => ?_⟩
    · cases e with
      | constant c => exact .tagged mode rfl c.tagKey_not_mem (c.restores.map _)
      | place p => exact .tagged mode rfl p.tagKey_not_mem ((hplace _ p).map _)
      | call c => exact .tagged mode rfl c.tagKey_not_mem ((hcall _ c).map _)
      | arithmetic operator lhs rhs span | compare operator lhs rhs span =>
        exact .tagged_record mode rfl rfl (by simp [tagKey]) rfl
          (.seq (.seq (.seq (.map _ (.required operator.restores)) (.required (hexpr _ lhs)))
            (.required (hexpr _ rhs))) (spanField_restores span))
      | logical operator lhs rhs span =>
        cases operator <;>
        exact .tagged_record mode rfl rfl (by simp [tagKey]) rfl
          (.seq (.seq (.map _ (.required (hexpr _ lhs))) (.required (hexpr _ rhs))) (spanField_restores span))
      | not operand span =>
        exact .tagged_record mode rfl rfl (by simp [tagKey]) rfl
          (.seq (.map _ (.required (hexpr _ operand))) (spanField_restores span))
    · obtain ⟨name, accesses, span⟩ := p
      exact Restores.record
        (.seq (.seq (.map _ (.required name.restores))
          (.optional (.items (Access.toJsons_eq accesses) (haccess mode)))) (spanField_restores span))
        rfl (by simp) mode
    · cases a with
      | field name => exact .tagged_record mode rfl rfl (by simp [tagKey]) rfl (.map _ (.required name.restores))
      | index position span =>
        exact .tagged_record mode rfl rfl (by simp [tagKey]) rfl
          (.seq (.map _ (.required (hexpr _ position))) (spanField_restores span))
    obtain ⟨target, arguments, span⟩ := c
    exact Restores.record
      (.seq (.seq (.map _ (.required (hplace mode target)))
        (.optional (.items (Expr.toJsons_eq arguments) (hexpr mode)))) (spanField_restores span))
      rfl (by simp) mode

theorem Expr.toJson_ne_null (e : Expr) : e.toJson ≠ .null := by
  cases e <;> simp [Expr.toJson, taggedJson]

/-! ### Statements -/

theorem Block.restores_option {read} (hread : ∀ b : Block, Restores levels read b.toJson b) (b : Option Block) :
    Restores levels (readOption read) (Block.optionToJson b) b := by
  rcases b with _ | b
  · exact .absent read
  have hne : b.toJson ≠ .null := by
    cases b
    simp [Block.toJson]
  exact .present hne (hread b)

theorem statements_restored (levels : Nat) :
    (∀ mode (s : Statement), Restores levels (Statement.ofDoc levels mode) s.toJson s) ∧
    (∀ mode (b : Block), Restores levels (Block.ofDoc levels mode) b.toJson b) ∧
    ∀ mode (c : Clause), Restores levels (Clause.ofDoc levels mode) c.toJson c := by
  induction levels with
  | zero =>
    refine ⟨fun _ s => ?_, fun _ b => ?_, fun _ c => ?_⟩
    · cases s <;> exact .none_left
    · cases b
      exact .none_left
    · cases c
      exact .none_left
  | succ levels ih =>
    obtain ⟨hstmt, hblock, hclause⟩ := ih
    obtain ⟨hty, -⟩ := writtenTypes_restored levels
    obtain ⟨hexpr, hplace, -, hcall⟩ := expressions_restored levels
    refine ⟨fun mode s => ?_, fun mode b => ?_, fun mode c => ?_⟩
    · cases s with
      | declare ty name span =>
        exact .tagged_record mode rfl rfl (by simp [tagKey]) rfl
          (.seq (.seq (.map _ (.required (hty _ ty).less)) (.required name.restores)) (spanField_restores span))
      | assign target value span =>
        exact .tagged_record mode rfl rfl (by simp [tagKey]) rfl
          (.seq (.seq (.map _ (.required (hplace _ target).less)) (.required (hexpr _ value)))
            (spanField_restores span))
      | declareAssign ty name value span =>
        exact .tagged_record mode rfl rfl (by simp [tagKey]) rfl
          (.seq (.seq (.seq (.map _ (.required (hty _ ty).less)) (.required name.restores))
            (.required (hexpr _ value))) (spanField_restores span))
      | ret value span =>
        have hvalue :
            Restores levels (readOption (Expr.ofDoc levels .settled)) (.ofOption Expr.toJson value) value := by
          cases value with
          | none => exact .absent _
          | some e => exact .present e.toJson_ne_null (hexpr _ e)
        exact .tagged_record mode rfl rfl (by simp [tagKey]) rfl
          (.seq (.map _ (.optional hvalue)) (spanField_restores span))
      | call c => exact .tagged mode rfl c.tagKey_not_mem ((hcall _ c).map _)
      | cond condition body clauses otherwise span =>
        exact .tagged_record mode rfl rfl (by simp [tagKey]) rfl
          (.seq (.seq (.seq (.seq (.map _ (.required (hexpr _ condition))) (.required (hblock _ body)))
            (.optional (.less (.items (Clause.toJsons_eq clauses) (hclause _)))))
            (.optional (Block.restores_option (hblock _) otherwise))) (spanField_restores span))
    · obtain ⟨statements, span⟩ := b
      exact Restores.record
        (.seq (.map _ (.required (.less (.items (Statement.toJsons_eq statements) (hstmt mode)))))
          (spanField_restores span))
        rfl (by simp) mode
    obtain ⟨condition, body, span⟩ := c
    exact Restores.record
      (.seq (.seq (.map _ (.required (hexpr mode condition))) (.required (hblock mode body)))
        (spanField_restores span))
      rfl (by simp) mode

/-! ### Units -/

section Units

variable (mode : Mode)

theorem readTypeName_restores (ty : TypeName) : Restores nestingLimit (readTypeName mode) ty.toJson ty :=
  ((writtenTypes_restored nestingLimit).1 mode ty).less

theorem FieldDefinition.restores (f : FieldDefinition) :
    Restores nestingLimit (FieldDefinition.ofDoc mode) f.toJson f :=
  .less (.record
    (.seq (.seq (.map _ (.required f.name.restores)) (.required (readTypeName_restores mode f.ty)))
      (spanField_restores f.span))
    rfl (by simp) mode)

theorem Parameter.restores (p : Parameter) : Restores nestingLimit (Parameter.ofDoc mode) p.toJson p :=
  .less (.record
    (.seq (.seq (.map _ (.required p.name.restores)) (.required (readTypeName_restores mode p.ty)))
      (spanField_restores p.span))
    rfl (by simp) mode)

theorem StructureDefinition.restores (s : StructureDefinition) :
    Restores nestingLimit (StructureDefinition.ofDoc mode) s.toJson s :=
  .less (.record
    (.seq (.seq (.seq (.seq (.map _ (.required s.name.restores))
      (.optional (.less (.items rfl Identifier.restores))))
      (.required (.less (.items rfl (FieldDefinition.restores mode)))))
      (.optional (readBool_restores s.external))) (spanField_restores s.span))
    rfl (by simp) mode)

theorem FunctionDefinition.restores (f : FunctionDefinition) :
    Restores nestingLimit (FunctionDefinition.ofDoc mode) f.toJson f :=
  .less (.record
    (.seq (.seq (.seq (.seq (.seq (.seq (.map _ (.required f.name.restores))
      (.optional (.less (.items rfl (Parameter.restores mode)))))
      (.required (readTypeName_restores mode f.returnType)))
      (.optional (Block.restores_option ((statements_restored nestingLimit).2.1 mode) f.body)))
      (.optional (readBool_restores f.external))) (.optional (readBool_restores f.exported)))
      (spanField_restores f.span))
    rfl (by simp) mode)

theorem SourceUnit.restores (u : SourceUnit) : Restores nestingLimit (SourceUnit.ofDoc mode) u.toJson u := by
  have hsrc : Restores nestingLimit (readOption (nameless readString)) (.ofOption .string u.source) u.source := by
    intro _
    cases u.source <;> rfl
  exact .less (.record
    (.seq (.seq (.map _ (.optional hsrc))
      (.optional (.less (.items rfl (StructureDefinition.restores mode)))))
      (.optional (.less (.items rfl (FunctionDefinition.restores mode)))))
    rfl (by simp) mode)

end Units

/-- **Reading what is written for a unit gives the unit back**, and so does reading again what is written for a unit
that was read from a text. The unit may nest fewer than `nestingLimit` levels. `ofJson` reads every unit back from its
value `toJson`, whatever its constants are. `ofText` reads it back from the text of that value if each of its constants
with a point is read back from its own text: that excludes NaN and the infinities, which are written as null. -/
theorem SourceUnit.read_written :
    (∀ u : SourceUnit, u.toJson.depth < nestingLimit → (SourceUnit.ofJson u.toJson).result = .ok u ∧
      ((∀ x, .float x ∈ u.toJson.numbers → (Number.float x).Legible) →
        (SourceUnit.ofText u.toJson.write).result = .ok u)) ∧
    ∀ (text : String) (u : SourceUnit), (SourceUnit.ofText text).result = .ok u → u.toJson.depth < nestingLimit →
      (SourceUnit.ofJson u.toJson).result = .ok u ∧
      ((∀ x, .float x ∈ u.toJson.numbers → (Number.float x).Legible) →
        (SourceUnit.ofText u.toJson.write).result = .ok u) := by
  have hback : ∀ u : SourceUnit, u.toJson.depth < nestingLimit → (SourceUnit.ofJson u.toJson).result = .ok u ∧
      ((∀ x, .float x ∈ u.toJson.numbers → (Number.float x).Legible) →
        (SourceUnit.ofText u.toJson.write).result = .ok u) := by
    intro u hdepth
    refine ⟨restores .value u hdepth.le, fun hfloats => ?_⟩
    have hlegible : ∀ n ∈ u.toJson.numbers, n.Legible := by
      intro n hn
      refine Number.legible ?_
      rintro x rfl
      exact hfloats x hn
    simp only [ofText, scan_write hdepth hlegible, Reading.result_bind, restores .text u hdepth.le]
    rfl
  exact ⟨hback, fun _ u _ => hback u⟩

/-- A unit with a structure template and a function that uses most of what can be written: pointers, template arguments,
accesses by name and by position, all kinds of constants, and a conditional with all of its parts. -/
def sampleUnit : SourceUnit where
  source := some "dir/\"a\"\\b.uv"
  structures := [
    { name := ⟨"Box", ⟨7, 10⟩⟩
      parameters := [⟨"T", ⟨11, 12⟩⟩]
      fields := [⟨"item", ⟨2, "T", [], {}⟩, ⟨20, 30⟩⟩]
      external := true
      span := ⟨0, 18446744073709551615⟩ }]
  functions := [
    { name := ⟨"f", ⟨41, 42⟩⟩
      parameters := [⟨"b", ⟨0, "Box", [.type ⟨1, "i32", [], {}⟩, .constant ⟨.integer (-3), {}⟩], {}⟩, {}⟩]
      returnType := "f64"
      body := some ⟨[
        .declareAssign "f64" "x" (.constant ⟨.float ⟨0x4004000000000000⟩, ⟨60, 63⟩⟩) {},
        .cond (.not (.constant ⟨.boolean true, {}⟩) {})
          ⟨[.assign ⟨"b", [.field "item", .index (.constant ⟨.integer 0, {}⟩) {}], {}⟩
            (.constant ⟨.string "tab\tbell\x07 \"é\"", {}⟩) {}], {}⟩
          [⟨.compare .less (.place "x") (.place "x") {},
            ⟨[.call ⟨"g", [.place "x"], {}⟩], {}⟩, {}⟩]
          (some ⟨[], {}⟩) {},
        .ret (some (.place "x")) {}], {}⟩
      exported := true
      span := ⟨40, 200⟩ }]

theorem sampleUnit_legible : (Number.float ⟨0x4004000000000000⟩).Legible := by
  apply Number.legible_of_scanValue
  intro rounds
  have hwrite : (Number.write (.float ⟨0x4004000000000000⟩)).toList = ['2', '.', '5'] := by decide +kernel
  have hvalue : Numeral.value ⟨false, [2], some [5], none⟩ = some (.float ⟨0x4004000000000000⟩) := by decide +kernel
  rfl

theorem sampleUnit_floats : ∀ x, .float x ∈ sampleUnit.toJson.numbers → (Number.float x).Legible := by
  intro x hx
  have hnums : ∀ n ∈ sampleUnit.toJson.numbers, n = .float ⟨0x4004000000000000⟩ ∨ n = .ofInt64 (-3) ∨
      ∃ m ∈ [0, 1, 2, 7, 10, 11, 12, 20, 30, 40, 41, 42, 60, 63, 200, 18446744073709551615], n = .natural m := by
    decide +kernel
  obtain hx | hx | ⟨m, -, hx⟩ := hnums _ hx
  · cases hx
    exact sampleUnit_legible
  · cases hx
  · cases hx

theorem sampleUnit_read_written :
    (SourceUnit.ofJson sampleUnit.toJson).result = .ok sampleUnit ∧
      (SourceUnit.ofText sampleUnit.toJson.write).result = .ok sampleUnit := by
  have hdepth : sampleUnit.toJson.depth < nestingLimit := by decide
  have hread := (SourceUnit.read_written.1 sampleUnit hdepth).2 sampleUnit_floats
  obtain ⟨hvalue, htext⟩ := SourceUnit.read_written.2 sampleUnit.toJson.write sampleUnit hread hdepth
  exact ⟨hvalue, htext sampleUnit_floats⟩

end Lowering
