import Stackless.Proofs.TreeEncoding
import Stackless.Proofs.VectorTables

/-!
# Decoding undoes encoding

What encloses the statement trees of a program is encoded as records, lists and tables, and
decoded to itself:

* `faithful_symbol` — an address that was left out is read as not fixed, values that were left
  out as none;
* `ofList_toList` — a vector table passes the checks that its levels go through one by one;
* `decode_undoes_encode` — a program is read from the text of its encoding.
-/

namespace Stackless

namespace Json.Value

/-- The names of an object's fields. -/
def fieldNames : Value → List (Option String)
  | .object fields => fields.map (·.1)
  | _ => []

end Json.Value

namespace Model

open Json (Value)
open Decode

section Symbols

variable {room : Nat}

/-- An absence that was left out is read as one. -/
theorem defaulted_nullable {α : Type} {decode : Value → Option α} {encode : α → Value}
    {a : Option α} (h : ∀ b, a = some b → decode (encode b) = some b) (hnull : ∀ b, encode b ≠ .null) :
    defaulted (a.map encode) none (nullable decode) = some a := by
  cases a with
  | none => rfl
  | some b => exact nullable_ofOption (a := some b) h hnull

/-- An empty list that was left out is read as one. -/
theorem defaulted_list {α : Type} {decode : Value → Option α} {encode : α → Value} {as : List α}
    (h : ∀ a ∈ as, decode (encode a) = some a)
    (hroom : as = [] ∨ (Value.array (as.map encode)).depth ≤ room) :
    defaulted (if as.isEmpty then none else some (.array (as.map encode))) []
      (list? room fun _ => decode) = some as := by
  cases as with
  | nil => rfl
  | cons a rest => exact list?_flat h (hroom.resolve_left (List.cons_ne_nil a rest))

/-- A symbol is read from its fields. -/
theorem symbol?_obj {type storage count : Value} {offset values : Option Value} {t : ValueType}
    {s : Storage} {c : UInt32} {o : Option UInt32} {vs : List Int32}
    (htype : type? room type = some t) (hstorage : member? Storage.spelling room storage = some s)
    (hcount : uint32? count = some c) (hoffset : defaulted offset none (nullable uint32?) = some o)
    (hvalues : defaulted values [] (list? room fun _ => int32?) = some vs) :
    symbol? (room + 1) (.obj ([("type", type), ("storage", storage), ("count", count)] ++
      optionalField "offset" offset ++ optionalField "values" values)) = some ⟨t, s, c, o, vs⟩ := by
  have hnames : (([("type", type), ("storage", storage), ("count", count)] ++
      optionalField "offset" offset ++ optionalField "values" values).map (·.1)).Nodup := by
    cases offset <;> cases values <;> simp [optionalField]
  have hoffsetField :
      (optionalField "offset" offset ++ optionalField "values" values).lookup "offset" = offset := by
    cases offset <;> cases values <;> simp [optionalField, List.lookup_cons]
  have hvaluesField :
      (optionalField "offset" offset ++ optionalField "values" values).lookup "values" = values := by
    cases offset <;> cases values <;> simp [optionalField, List.lookup_cons]
  have hcountField : defaulted (some count) 1 uint32? = some c := hcount
  rw [symbol?, enter, record?_obj hnames]
  simp [List.lookup_cons, hoffsetField, hvaluesField, required, htype, hstorage, hcountField, hoffset,
    hvalues]

/-- **Symbols are faithful.**  What is left out of their text is just what the reader puts in where
it finds nothing. -/
theorem faithful_symbol (s : Symbol) : Faithful symbol? encodeSymbol s := by
  refine ⟨?_, fun room h => ?_⟩
  · have hoffset : ∀ f ∈ optionalField "offset" (s.offset.map fun n => Value.nat n.toNat),
        f.2.Plain := by
      cases s.offset <;> simp [optionalField]
    have hvalues : ∀ f ∈ optionalField "values" (if s.values.isEmpty then none
        else some (.array (s.values.map fun n => Value.int n.toInt))), f.2.Plain := by
      split <;> simp [optionalField]
    have hfixed : ∀ f ∈ [("type", encodeType s.type),
        ("storage", Value.str (Storage.spelling.write s.storage)),
        ("count", Value.nat s.count.toNat)], f.2.Plain := by
      simp [encodeType]
    exact Value.plain_obj.mpr
      (List.forall_mem_append.mpr ⟨List.forall_mem_append.mpr ⟨hfixed, hoffset⟩, hvalues⟩)
  · obtain ⟨inner, rfl, hfields⟩ := Value.depth_obj_le.mp h
    have hroom : s.values = [] ∨
        (Value.array (s.values.map fun n => Value.int n.toInt)).depth ≤ inner := by
      by_cases hempty : s.values = []
      · exact .inl hempty
      · exact .inr (hfields ("values", _) (List.mem_append_right _ (by simp [optionalField, hempty])))
    exact symbol?_obj (member?_write s.type.read?_write inner) (member?_write s.storage.read?_write inner)
      (uint32?_nat s.count)
      (defaulted_nullable (fun n _ => uint32?_nat n) (fun n h => by cases h))
      (defaulted_list (fun n _ => int32?_int n) hroom)

end Symbols

section Declarations

variable {room : Nat}

theorem parameter?_obj {name type : Value} {n : String} {t : ValueType} (hname : text? name = some n)
    (htype : type? room type = some t) :
    parameter? (room + 1) (.obj [("name", name), ("type", type)]) = some ⟨n, t⟩ := by
  rw [parameter?, enter, record?_obj (by simp)]
  simp [List.lookup_cons, required, hname, htype]

theorem faithful_parameter (p : Parameter) : Faithful parameter? encodeParameter p where
  plain := by simp [encodeParameter, encodeType]
  decode_eq := fun room h => by
    obtain ⟨inner, rfl, _⟩ := Value.depth_obj_le.mp h
    exact parameter?_obj rfl (member?_write p.type.read?_write inner)

/-- A function is read from its fields. -/
theorem function?_obj {label isr returns parameters symbols body : Value} {l : String} {i : Bool}
    {r : Option ValueType} {ps : List Parameter} {ss : Table Symbol} {b : List (Located Stmt)}
    (hlabel : text? label = some l) (hisr : bool? isr = some i)
    (hreturns : nullable (type? room) returns = some r)
    (hparameters : list? room parameter? parameters = some ps)
    (hsymbols : table? room symbol? symbols = some ss) (hbody : list? room located? body = some b) :
    function? (room + 1) (.obj [("label", label), ("isr", isr), ("returns", returns),
      ("parameters", parameters), ("symbols", symbols), ("body", body)]) =
      some ⟨l, i, r, ps, ss, b⟩ := by
  rw [function?, enter, record?_obj (by simp)]
  simp [List.lookup_cons, required, defaulted, hlabel, hisr, hreturns, hparameters, hsymbols, hbody]

/-- **Functions are faithful.** -/
theorem faithful_function (f : Function) : Faithful function? encodeFunction f := by
  have hbody := faithful_stmts f.body
  have hsymbols : (encodeTable encodeSymbol f.symbols).Plain :=
    plain_encodeTable fun e _ => (faithful_symbol e.2).plain
  have hreturns : (Value.ofOption encodeType f.returns).Plain := plain_ofOption fun t _ => .string _
  refine ⟨?_, fun room h => ?_⟩
  · have hparameters : ∀ p ∈ f.parameters, (encodeParameter p).Plain :=
      fun p _ => (faithful_parameter p).plain
    have hstmts : ∀ s ∈ f.body, (encodeLocated s).Plain := fun s hs => (hbody s hs).plain
    simp [encodeFunction, encodeStmts_eq_map, hsymbols, hreturns]
    exact ⟨hparameters, hstmts⟩
  · rw [encodeFunction, encodeStmts_eq_map] at h ⊢
    obtain ⟨inner, rfl, hfields⟩ := Value.depth_obj_le.mp h
    exact function?_obj rfl rfl
      (nullable_ofOption (fun t _ => member?_write t.read?_write inner) fun t h => by cases h)
      (list?_array (fun p _ => faithful_parameter p) (hfields ("parameters", _) (by simp)))
      (table?_encodeTable (fun e _ => faithful_symbol e.2)
        (hfields ("symbols", encodeTable encodeSymbol f.symbols) (by simp)))
      (list?_array hbody (hfields ("body", .array (f.body.map encodeLocated)) (by simp)))

theorem module?_obj {symbols functions : Value} {ss : Table Symbol} {fs : Table Function}
    (hsymbols : table? room symbol? symbols = some ss)
    (hfunctions : table? room function? functions = some fs) :
    module? (room + 1) (.obj [("symbols", symbols), ("functions", functions)]) = some ⟨ss, fs⟩ := by
  rw [module?, enter, record?_obj (by simp)]
  simp [List.lookup_cons, defaulted, hsymbols, hfunctions]

/-- Modules are faithful. -/
theorem faithful_module (m : Module) : Faithful module? encodeModule m where
  plain := by
    have hsymbols : (encodeTable encodeSymbol m.symbols).Plain :=
      plain_encodeTable fun e _ => (faithful_symbol e.2).plain
    have hfunctions : (encodeTable encodeFunction m.functions).Plain :=
      plain_encodeTable fun e _ => (faithful_function e.2).plain
    simp [encodeModule, hsymbols, hfunctions]
  decode_eq := fun room h => by
    obtain ⟨inner, rfl, hfields⟩ := Value.depth_obj_le.mp h
    exact module?_obj
      (table?_encodeTable (fun e _ => faithful_symbol e.2)
        (hfields ("symbols", encodeTable encodeSymbol m.symbols) (by simp)))
      (table?_encodeTable (fun e _ => faithful_function e.2)
        (hfields ("functions", encodeTable encodeFunction m.functions) (by simp)))

theorem config?_obj {rom ram const : Value} {r a c : UInt32} (hrom : uint32? rom = some r)
    (hram : uint32? ram = some a) (hconst : uint32? const = some c) :
    config? (room + 1) (.obj [("rom_bits", rom), ("ram_bits", ram), ("const_bits", const)]) =
      some ⟨r, a, c⟩ := by
  rw [config?, enter, record?_obj (by simp)]
  simp [List.lookup_cons, required, hrom, hram, hconst]

theorem faithful_config (c : HardwareConfig) : Faithful config? encodeConfig c where
  plain := by simp [encodeConfig]
  decode_eq := fun room h => by
    obtain ⟨inner, rfl, _⟩ := Value.depth_obj_le.mp h
    exact config?_obj (uint32?_nat c.romBits) (uint32?_nat c.ramBits) (uint32?_nat c.constBits)

end Declarations

section VectorTables

/-- **A vector table passes the checks of its levels.**  Its first slot is empty and there are
sixteen, which is all that reading a table asks for. -/
theorem ofList_toList (v : Vectors) : VectorTable.ofList v.toList = .ok v.table :=
  VectorTable.ofList_toList (t := v.table) rfl

/-- Vector tables are faithful. -/
theorem faithful_vectors (v : Vectors) : Faithful vectors? encodeVectors v where
  plain := by
    have hslots : ∀ slot ∈ v.toList, (Value.ofOption Value.str slot).Plain :=
      fun slot _ => plain_ofOption fun label _ => Value.plain_str label
    exact Value.plain_array.mpr (List.forall_mem_map.mpr hslots)
  decode_eq := fun room h => by
    have hslots : ∀ slot ∈ v.toList, nullable text? (Value.ofOption Value.str slot) = some slot :=
      fun slot _ => nullable_ofOption (fun label _ => rfl) fun label h => by cases h
    rw [vectors?, encodeVectors, list?_flat hslots h]
    show (do
      let table ← (VectorTable.ofList v.toList).toOption
      return table.levels) = some v
    rw [ofList_toList]
    rfl

end VectorTables

section Programs

variable {room : Nat}

/-- A program is read from its fields. -/
theorem program?_obj {name config vectors modules : Value} {n : String} {c : HardwareConfig}
    {v : Vectors} {ms : Table Module} (hname : text? name = some n)
    (hconfig : config? room config = some c) (hvectors : vectors? room vectors = some v)
    (hmodules : table? room module? modules = some ms) :
    program? (room + 1) (.obj [("name", name), ("config", config), ("vectors", vectors),
      ("modules", modules)]) = some ⟨n, c, v, ms⟩ := by
  rw [program?, enter, record?_obj (by simp)]
  simp [List.lookup_cons, required, defaulted, hname, hconfig, hvectors, hmodules]

/-- **Programs are faithful.** -/
theorem faithful_program (p : Program) : Faithful program? Program.encode p where
  plain := by
    have hmodules : (encodeTable encodeModule p.modules).Plain :=
      plain_encodeTable fun e _ => (faithful_module e.2).plain
    simp [Program.encode, hmodules, (faithful_config p.config).plain, (faithful_vectors p.vectors).plain]
  decode_eq := fun room h => by
    obtain ⟨inner, rfl, hfields⟩ := Value.depth_obj_le.mp h
    exact program?_obj rfl
      ((faithful_config p.config).decode_eq inner
        (hfields ("config", encodeConfig p.config) (by simp)))
      ((faithful_vectors p.vectors).decode_eq inner
        (hfields ("vectors", encodeVectors p.vectors) (by simp)))
      (table?_encodeTable (fun e _ => faithful_module e.2)
        (hfields ("modules", encodeTable encodeModule p.modules) (by simp)))

/-- A symbol is written with its address if that is fixed, and with its values if it has any. -/
theorem fieldNames_encodeSymbol (s : Symbol) :
    (encodeSymbol s).fieldNames = [some "type", some "storage", some "count"] ++
      (if s.offset.isSome then [some "offset"] else []) ++
      (if s.values.isEmpty then [] else [some "values"]) := by
  rw [encodeSymbol]
  cases s.offset <;> cases s.values <;> rfl

/-- A statement is written with its position if that is known. -/
theorem fieldNames_encodeLocated : ∀ s : Located Stmt,
    (encodeLocated s).fieldNames =
      (if s.position.isSome then [some "at"] else []) ++ [some "value"]
  | ⟨none, _⟩ => by
    rw [encodeLocated]
    rfl
  | ⟨some _, _⟩ => by
    rw [encodeLocated]
    rfl

/-- **Decoding undoes encoding.**  A program whose encoding nests no deeper than the reader
goes is read from the text of its encoding, although unknown positions, addresses that are not
fixed and empty lists of values are not written there. -/
theorem decode_undoes_encode (p : Program) (h : p.encode.depth ≤ maxNesting) :
    Program.parse? p.encode.toText = some p ∧
      (∀ s : Symbol, (encodeSymbol s).fieldNames = [some "type", some "storage", some "count"] ++
        (if s.offset.isSome then [some "offset"] else []) ++
        (if s.values.isEmpty then [] else [some "values"])) ∧
      ∀ s : Located Stmt, (encodeLocated s).fieldNames =
        (if s.position.isSome then [some "at"] else []) ++ [some "value"] := by
  refine ⟨?_, fieldNames_encodeSymbol, fieldNames_encodeLocated⟩
  rw [Program.parse?, Json.read_toText (faithful_program p).plain, Option.bind_eq_bind,
    Option.bind_some, Program.decode?]
  exact (faithful_program p).decode_eq maxNesting h

/-- A program with the extremes of what can be written: characters that have to be escaped, the
least and the greatest numbers, and parts that are left out next to parts that are not. -/
def almanac : Program :=
  { name := "casa\n\"\\\t\u0001𝄞"
    config := ⟨0, 4294967295, 16⟩
    vectors := ⟨(List.replicate 15 none).set 14 (some "casa.señal"), rfl⟩
    modules := Table.empty.insert "casa"
      { symbols := (Table.empty.insert "k" (.constant .int [-2147483648, 2147483647])).insert "p"
          (.portAt 4294967295)
        functions := Table.empty.insert "f"
          { label := "casa.señal", isr := true, returns := some .bool, parameters := [⟨"x", .ram⟩]
            symbols := Table.empty.insert "x" (.ramArray 0)
            body := [
              ⟨some ⟨"casa.src", 7⟩, .branch (.compare .le (.var "x") (.int (-1)))
                (.nowhere (.assign (.var "x") (some .logicalNot) (.call "g" [.bool true]))) none⟩,
              .nowhere (.loop ⟨some ⟨"", 0⟩, .breakLoop⟩),
              .nowhere (.ret none)] } } }

/-- `almanac` nests sixteen deep. -/
theorem decode_undoes_encode_almanac :
    almanac.encode.depth = 16 ∧ Program.parse? almanac.encode.toText = some almanac := by
  have hdepth : almanac.encode.depth = 16 := by decide +kernel
  have hroom : almanac.encode.depth ≤ maxNesting := hdepth ▸ by decide
  exact ⟨hdepth, (decode_undoes_encode almanac hroom).1⟩

end Programs

end Model

end Stackless
