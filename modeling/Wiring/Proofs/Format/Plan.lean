import Wiring.Format.Plan
import Wiring.Proofs.Format.Recipe

/-! # Plans survive as text

A plan whose literals have no doubles is read back from its text, indented or compact, as the very same
plan, as long as the text is not nested too deep for the reader.
-/
namespace Wiring
open Source

def Operand.literals : Operand → List Json
  | .literal value => [value]
  | _ => []

def Call.literals (c : Call) : List Json := c.operands.flatMap Operand.literals

def Assembly.literals (a : Assembly) : List Json :=
  a.operands.flatMap Operand.literals ++ a.calls.flatMap Call.literals

def Plan.Body.literals : Plan.Body → List Json
  | .construct assembly => assembly.literals
  | .literal value => [value]
  | .provide assembly _ => assembly.literals

def Plan.literals (p : Plan) : List Json := p.body.literals

theorem Operand.ofSource?_toJson (reading : Reading) {o : Operand} (sorted : ∀ v ∈ o.literals, v.Sorted) :
    Operand.ofSource? reading (ofJson o.toJson) = some o := by
  cases o with
  | reference scope key =>
    have told := tagged?_ofJson reading "expr" "reference" [("scope", scope.toJson), ("key", key.toJson)]
      (show cases.idxOf? "reference" = some 0 from rfl) (by simp)
    have fields : fields? ["scope", "key"]
      (.object (ofMembers [("scope", scope.toJson), ("key", key.toJson)])) =
        some [some (ofJson scope.toJson), some (ofJson key.toJson)] := rfl
    simp only [Operand.ofSource?, Operand.toJson, told, fields, Option.bind_eq_bind, Option.bind_some,
      required_some, Scope.ofSource?_toJson, Key.ofSource?_toJson]
  | deferred scope key point =>
    have told := tagged?_ofJson reading "expr" "on_demand"
      [("scope", scope.toJson), ("key", key.toJson), ("injection_point", point.toJson)]
      (show cases.idxOf? "on_demand" = some 1 from rfl) (by simp)
    have fields : fields? ["scope", "key", "injection_point"] (.object (ofMembers
      [("scope", scope.toJson), ("key", key.toJson), ("injection_point", point.toJson)])) =
        some [some (ofJson scope.toJson), some (ofJson key.toJson), some (ofJson point.toJson)] := rfl
    simp only [Operand.ofSource?, Operand.toJson, told, fields, Option.bind_eq_bind, Option.bind_some,
      required_some, Scope.ofSource?_toJson, Key.ofSource?_toJson, Point.ofSource?_toJson]
  | literal value =>
    have told := tagged?_ofJson reading "expr" "literal" [("value", value)]
      (show cases.idxOf? "literal" = some 2 from rfl) (by simp)
    have fields : fields? ["value"] (.object (ofMembers [("value", value)])) = some [some (ofJson value)] :=
      rfl
    have literal := value?_ofJson value (sorted value List.mem_cons_self)
    simp only [Operand.ofSource?, Operand.toJson, told, fields, Option.bind_eq_bind, Option.bind_some,
      required_some, literal, Option.map_some]

theorem Operand.list?_toJson (reading : Reading) {operands : List Operand}
    (sorted : ∀ v ∈ operands.flatMap literals, v.Sorted) :
    list? (Operand.ofSource? reading) (ofJson (Json.list Operand.toJson operands)) = some operands :=
  list?_ofJson fun o member => Operand.ofSource?_toJson reading fun v inside =>
    sorted v (List.mem_flatMap.mpr ⟨o, member, inside⟩)

theorem Call.ofSource?_toJson (reading : Reading) {c : Call} (sorted : ∀ v ∈ c.literals, v.Sorted) :
    Call.ofSource? reading (ofJson c.toJson) = some c := by
  have fields : (ofJson c.toJson).fields? ["method", "arguments"] =
    some [some (ofJson (Json.string c.method)), some (ofJson (Json.list Operand.toJson c.operands))] := rfl
  simp only [Call.ofSource?, fields, Option.bind_eq_bind, Option.bind_some, required_some,
    Operand.list?_toJson reading sorted]
  rfl

theorem Source.optional_string (text : Option String) :
    Source.optional none (nullable string?) (text.map fun s => ofJson (Json.string s)) = some text := by
  cases text <;> rfl

theorem Assembly.ofSource?_toJson (reading : Reading) {a : Assembly} (sorted : ∀ v ∈ a.literals, v.Sorted) :
    Assembly.ofSource? reading (ofJson a.toJson) = some a := by
  have fields : (ofJson a.toJson).fields? ["class", "arguments", "setters", "post_construct"] =
    some [some (ofJson (Json.string a.className)), some (ofJson (Json.list Operand.toJson a.operands)),
      some (ofJson (Json.list Call.toJson a.calls)), a.hook.map fun s => ofJson (Json.string s)] := by
    obtain ⟨className, operands, calls, hook⟩ := a
    cases hook <;> rfl
  have operands : list? (Operand.ofSource? reading) (ofJson (Json.list Operand.toJson a.operands)) =
      some a.operands :=
    Operand.list?_toJson reading fun v inside => sorted v (List.mem_append_left _ inside)
  have calls : list? (Call.ofSource? reading) (ofJson (Json.list Call.toJson a.calls)) = some a.calls :=
    list?_ofJson fun c member => Call.ofSource?_toJson reading fun v inside =>
      sorted v (List.mem_append_right _ (List.mem_flatMap.mpr ⟨c, member, inside⟩))
  simp only [Assembly.ofSource?, fields, Option.bind_eq_bind, Option.bind_some, required_some, optional_some,
    operands, calls, optional_string]
  rfl

theorem Plan.Body.ofSource?_toJson (reading : Reading) {b : Body} (sorted : ∀ v ∈ b.literals, v.Sorted) :
    Body.ofSource? reading (ofJson b.toJson) = some b := by
  cases b with
  | construct assembly =>
    have told := tagged?_ofJson reading "body" "construct" [("instantiation", assembly.toJson)]
      (show cases.idxOf? "construct" = some 0 from rfl) (by simp)
    have fields : fields? ["instantiation"] (.object (ofMembers [("instantiation", assembly.toJson)])) =
      some [some (ofJson assembly.toJson)] := rfl
    simp only [Body.ofSource?, Body.toJson, told, fields, Option.bind_eq_bind, Option.bind_some,
      required_some, Assembly.ofSource?_toJson .buffered sorted, Option.map_some]
  | literal value =>
    have told := tagged?_ofJson reading "body" "instance" [("value", value)]
      (show cases.idxOf? "instance" = some 1 from rfl) (by simp)
    have fields : fields? ["value"] (.object (ofMembers [("value", value)])) = some [some (ofJson value)] :=
      rfl
    have literal := value?_ofJson value (sorted value List.mem_cons_self)
    simp only [Body.ofSource?, Body.toJson, told, fields, Option.bind_eq_bind, Option.bind_some,
      required_some, literal, Option.map_some]
  | provide assembly context =>
    have apart : "body" ∉ (("provider", assembly.toJson) ::
        Json.optionalMember "context" Json.string context).map Prod.fst := by
      cases context <;> simp [Json.optionalMember]
    have told := tagged?_ofJson reading "body" "provide" _
      (show cases.idxOf? "provide" = some 2 from rfl) apart
    have fields : fields? ["provider", "context"] (.object (ofMembers (("provider", assembly.toJson) ::
        Json.optionalMember "context" Json.string context))) =
          some [some (ofJson assembly.toJson), context.map fun s => ofJson (Json.string s)] := by
      cases context <;> rfl
    simp only [Body.ofSource?, Body.toJson, List.cons_append, List.nil_append, told, fields,
      Option.bind_eq_bind, Option.bind_some, required_some, Assembly.ofSource?_toJson .buffered sorted,
      optional_string]

theorem Source.word32?_of_integer? {s : Source} {n : Int} (read : s.integer? = some n)
    (range : Unsigned32 n) : s.word32? = some n.toNat.toUInt32 := by
  simp only [word32?, read, Option.bind_eq_bind, Option.bind_some, if_pos range]

theorem Source.integer?_ofWord32 (n : UInt32) : integer? (ofJson (Json.ofWord32 n)) = some (n.toNat : Int) :=
  rfl

theorem UInt32.toUInt32_toNat (n : UInt32) : (n.toNat : Int).toNat.toUInt32 = n := by
  rw [Int.toNat_natCast]
  exact UInt32.ofNat_toNat

theorem Source.word32?_ofWord32 (n : UInt32) : word32? (ofJson (Json.ofWord32 n)) = some n := by
  have range : Unsigned32 (n.toNat : Int) := by
    have size := n.toNat_lt
    omega
  rw [word32?_of_integer? (integer?_ofWord32 n) range, UInt32.toUInt32_toNat]

/-- A plan from its parts. These are left open here, so that nothing is computed of the version's bounds. -/
theorem Plan.ofSource?_of_parts {version key scope body : Source} {p : Plan}
    (versioned : version.word32? = some p.version) (named : Key.ofSource? key = some p.key)
    (lasting : Scope.ofSource? .direct scope = some p.scope)
    (made : Body.ofSource? .direct body = some p.body) :
    Plan.ofSource? (.object
      [("format_version", version), ("key", key), ("scope", scope), ("body", body)]) = some p := by
  have fields : fields? ["format_version", "key", "scope", "body"] (.object
    [("format_version", version), ("key", key), ("scope", scope), ("body", body)]) =
      some [some version, some key, some scope, some body] := rfl
  simp only [Plan.ofSource?, fields, Option.bind_eq_bind, Option.bind_some, required_some, versioned,
    named, lasting, made]

theorem Plan.ofSource?_toJson {p : Plan} (sorted : ∀ v ∈ p.literals, v.Sorted) :
    Plan.ofSource? (ofJson p.toJson) = some p :=
  ofSource?_of_parts (word32?_ofWord32 p.version) (Key.ofSource?_toJson p.key)
    (Scope.ofSource?_toJson .direct p.scope) (Body.ofSource?_toJson .direct sorted)

theorem Source.fields?_concat {names : List String} {name : String} (unknown : name ∉ names)
    (members : List (String × Source)) (s : Source) :
    fields? names (.object (members ++ [(name, s)])) = fields? names (.object members) := by
  have same : ∀ known ∈ names, member? known (members ++ [(name, s)]) = member? known members := by
    intro known inside
    have apart : name ≠ known := fun equal => unknown (equal ▸ inside)
    simp [member?, apart]
  unfold fields?
  induction names with
  | nil => rfl
  | cons known names ih =>
    obtain ⟨first, others⟩ := List.forall_mem_cons.mp same
    simp only [List.mapM_cons, first, ih (fun inside => unknown (.tail _ inside)) others]

/-- A member that a plan has no use for makes no difference, be it one that stands for no value. -/
theorem Plan.ofSource?_concat {name : String} (unknown : name ∉ ["format_version", "key", "scope", "body"])
    (members : List (String × Source)) (s : Source) :
    ofSource? (.object (members ++ [(name, s)])) = ofSource? (.object members) := by
  rw [ofSource?, ofSource?, fields?_concat unknown]

-- The file is no text, as its last string is none.
example : Plan.ofBytes? (("\x7b\"format_version\":1,\"key\":\x7b\"interface\":\"A\",\"name\":\"\"\x7d," ++
      "\"scope\":\"singleton\",\"body\":\x7b\"body\":\"instance\",\"value\":null\x7d,\"note\":\"").toUTF8 ++
      ⟨#[0xff]⟩ ++ "\"\x7d".toUTF8) =
    some ⟨1, .plain "A", .singleton, .literal Json.null⟩ := by decide +kernel

theorem Operand.integral_list {operands : List Operand}
    (integral : ∀ v ∈ operands.flatMap literals, v.Integral) :
    (Json.list Operand.toJson operands).Integral := by
  refine Json.integral_list fun o member => ?_
  have inside : ∀ v ∈ o.literals, v.Integral := fun v inside =>
    integral v (List.mem_flatMap.mpr ⟨o, member, inside⟩)
  cases o with
  | reference scope key => exact ⟨trivial, trivial, key.integral_toJson, trivial⟩
  | deferred scope key point =>
    exact ⟨trivial, trivial, key.integral_toJson, point.integral_toJson, trivial⟩
  | literal value => exact ⟨trivial, inside value List.mem_cons_self, trivial⟩

theorem Assembly.integral_toJson {a : Assembly} (integral : ∀ v ∈ a.literals, v.Integral) :
    a.toJson.Integral := by
  refine ⟨trivial, Operand.integral_list fun v inside => integral v (List.mem_append_left _ inside),
    Json.integral_list fun c member => ⟨trivial, Operand.integral_list fun v inside => ?_, trivial⟩,
    Json.integralMembers_optional _ _⟩
  exact integral v (List.mem_append_right _ (List.mem_flatMap.mpr ⟨c, member, inside⟩))

theorem Plan.integral_toJson {p : Plan} (integral : ∀ v ∈ p.literals, v.Integral) : p.toJson.Integral := by
  have body : p.body.toJson.Integral := by
    unfold Plan.literals at integral
    cases found : p.body with
    | construct assembly =>
      rw [found] at integral
      exact ⟨trivial, Assembly.integral_toJson integral, trivial⟩
    | literal value =>
      rw [found] at integral
      exact ⟨trivial, integral value List.mem_cons_self, trivial⟩
    | provide assembly context =>
      rw [found] at integral
      exact ⟨trivial, Assembly.integral_toJson integral, Json.integralMembers_optional _ _⟩
  exact ⟨trivial, p.key.integral_toJson, trivial, body, trivial⟩

/-- A plan whose text can be read back: its literals are well-formed and have no doubles, and the whole is
not nested too deep. -/
structure Plan.Textual (p : Plan) : Prop where
  sorted : ∀ v ∈ p.literals, v.Sorted
  integral : ∀ v ∈ p.literals, v.Integral
  shallow : p.toJson.depth ≤ Source.maxDepth

theorem Plan.ofText?_print {layout : Json.Layout} (blank : layout.Blank) {p : Plan} (textual : p.Textual) :
    Plan.ofText? (String.ofList (Json.print layout 0 p.toJson)) = some p := by
  have read : Source.readBytes (String.ofList (Json.print layout 0 p.toJson)).toUTF8 = some (ofJson p.toJson) :=
    read_print blank (integral_toJson textual.integral) textual.shallow
  rw [ofText?, ofBytes?, read, Option.bind_eq_bind, Option.bind_some, ofSource?_toJson textual.sorted]

/-- In either layout the text of a plan reads back as that plan, whatever its version, its texts and its
literals, as long as these have no doubles. -/
theorem Plan.texts_read_back {p : Plan} (sorted : ∀ v ∈ p.literals, v.Sorted)
    (integral : ∀ v ∈ p.literals, v.Integral) (shallow : p.toJson.depth ≤ 127) :
    Plan.ofText? p.toJson.compact = some p ∧ Plan.ofText? p.toJson.indented = some p := by
  have textual : p.Textual := ⟨sorted, integral, shallow⟩
  exact ⟨ofText?_print Json.Layout.blank_compact textual, ofText?_print Json.Layout.blank_indented textual⟩

def extremes : Json :=
  .object [("", .array [Json.number (.integer ⟨-9223372036854775808, by decide⟩),
      Json.number (.integer ⟨18446744073709551615, by decide⟩), .array [], .object []]),
    ("body", Json.string "a\"\\\x00\n/é\u2028"), ("expr", Json.null)]

theorem sorted_extremes : extremes.Sorted := by
  simp only [extremes, Json.Sorted, Json.SortedMembers, Json.SortedItems, Json.number, Json.string, Json.null,
    Ascending]
  decide

theorem integral_extremes : extremes.Integral := by
  simp only [extremes, Json.Integral, Json.IntegralMembers, Json.IntegralItems, Json.number, Json.string,
    Json.null, and_self]

/-- A plan of another version, with operands of each kind, the same call twice and names of all sorts. -/
def patchwork : Plan where
  version := 4294967295
  key := ⟨"app::Ä", "#\t"⟩
  scope := .singleton
  body := .provide ⟨"", [.reference .prototype ⟨"app::B", ""⟩, .literal extremes,
      .deferred .singleton ⟨"::", "x"⟩ ⟨"app::Ä", "new", "b\""⟩],
    [⟨"set", [.literal (Json.bool false)]⟩, ⟨"set", []⟩], some "\x1f"⟩ (some "")

theorem patchwork_reads_back : (∀ v ∈ patchwork.literals, v.Sorted) ∧
    (∀ v ∈ patchwork.literals, v.Integral) ∧ patchwork.toJson.depth ≤ 127 ∧
    Plan.ofText? patchwork.toJson.compact = some patchwork ∧
    Plan.ofText? patchwork.toJson.indented = some patchwork := by
  have literals : patchwork.literals = [extremes, Json.bool false] := rfl
  have sorted : ∀ v ∈ patchwork.literals, v.Sorted := by
    simp [literals, sorted_extremes, Json.bool, Json.Sorted]
  have integral : ∀ v ∈ patchwork.literals, v.Integral := by
    simp [literals, integral_extremes, Json.bool, Json.Integral]
  have shallow : patchwork.toJson.depth ≤ 127 := by decide +kernel
  exact ⟨sorted, integral, shallow, Plan.texts_read_back sorted integral shallow⟩

end Wiring
