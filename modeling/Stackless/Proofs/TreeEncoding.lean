import Mathlib.Data.List.Nodup
import Stackless.Model.Decode
import Stackless.Model.Encode
import Stackless.Proofs.JsonText
import Stackless.Proofs.LeavingOut

/-!
# Encoded expressions and statements are decoded to themselves

A part of a model is **faithful** if its encoding is a plain value, and is decoded to that part
wherever there is room for it.  Faithfulness goes through lists, tables and records, and by
induction through expressions and statements:

* `record?_obj` — the fields of a record are found by their names;
* `located?_nowhere` — a position that was left out is read as an unknown one;
* `faithful_expr`, `faithful_stmt` — trees of any shape, as deep as there is room.
-/

namespace Stackless

namespace Json.Value

mutual

/-- How many containers are nested in a value. -/
def depth : Value → Nat
  | .array vs => depthAll vs + 1
  | .object fs => depthFields fs + 1
  | _ => 0

/-- The depth of the deepest item. -/
def depthAll : List Value → Nat
  | [] => 0
  | v :: vs => max (depth v) (depthAll vs)

/-- The depth of the deepest field. -/
def depthFields : List (Option String × Value) → Nat
  | [] => 0
  | (_, v) :: fs => max (depth v) (depthFields fs)

end

theorem depthAll_le {room : Nat} : ∀ {vs : List Value}, depthAll vs ≤ room ↔ ∀ v ∈ vs, v.depth ≤ room
  | [] => by simp [depthAll]
  | v :: vs => by
    rw [depthAll, Nat.max_le, depthAll_le, List.forall_mem_cons]

theorem depthFields_le {room : Nat} :
    ∀ {fs : List (Option String × Value)}, depthFields fs ≤ room ↔ ∀ f ∈ fs, f.2.depth ≤ room
  | [] => by simp [depthFields]
  | (name, v) :: fs => by
    rw [depthFields, Nat.max_le, depthFields_le, List.forall_mem_cons]

/-- There is room for an array if there is room inside it for its items. -/
theorem depth_array_le {vs : List Value} {room : Nat} :
    (Value.array vs).depth ≤ room ↔ ∃ inner, room = inner + 1 ∧ ∀ v ∈ vs, v.depth ≤ inner := by
  rw [depth]
  constructor
  · intro h
    obtain ⟨inner, rfl⟩ := Nat.exists_eq_succ_of_ne_zero (Nat.ne_of_gt (Nat.lt_of_lt_of_le (Nat.succ_pos _) h))
    exact ⟨inner, rfl, depthAll_le.mp (Nat.le_of_succ_le_succ h)⟩
  · rintro ⟨inner, rfl, h⟩
    exact Nat.succ_le_succ (depthAll_le.mpr h)

/-- There is room for an object if there is room inside it for its fields. -/
theorem depth_obj_le {fields : List (String × Value)} {room : Nat} :
    (Value.obj fields).depth ≤ room ↔ ∃ inner, room = inner + 1 ∧ ∀ f ∈ fields, f.2.depth ≤ inner := by
  have hfields : ∀ inner, depthFields (fields.map fun f => (some f.1, f.2)) ≤ inner ↔
      ∀ f ∈ fields, f.2.depth ≤ inner := by
    intro inner
    rw [depthFields_le, List.forall_mem_map]
  rw [obj, depth]
  constructor
  · intro h
    obtain ⟨inner, rfl⟩ := Nat.exists_eq_succ_of_ne_zero (Nat.ne_of_gt (Nat.lt_of_lt_of_le (Nat.succ_pos _) h))
    exact ⟨inner, rfl, (hfields inner).mp (Nat.le_of_succ_le_succ h)⟩
  · rintro ⟨inner, rfl, h⟩
    exact Nat.succ_le_succ ((hfields inner).mpr h)

@[simp]
theorem plain_str (s : String) : (Value.str s).Plain :=
  .string _

@[simp]
theorem plain_nat (n : Nat) : (Value.nat n).Plain :=
  .int _

@[simp]
theorem plain_obj {fields : List (String × Value)} :
    (Value.obj fields).Plain ↔ ∀ f ∈ fields, f.2.Plain := by
  refine ⟨fun h => ?_, fun h => .object (List.forall_mem_map.mpr h)⟩
  cases h with
  | object h => exact fun f hf => h (some f.1, f.2) (List.mem_map_of_mem hf)

@[simp]
theorem plain_array {vs : List Value} : (Value.array vs).Plain ↔ ∀ v ∈ vs, v.Plain := by
  refine ⟨fun h => ?_, .array⟩
  cases h with
  | array h => exact h

attribute [simp] Plain.null Plain.bool Plain.int

end Json.Value

namespace Model

open Json (Value)
open Decode

/-- The part is encoded as a plain value, and decoded from it wherever there is room. -/
structure Faithful {α : Type} (decode : Nat → Value → Option α) (encode : α → Value) (a : α) :
    Prop where
  plain : (encode a).Plain
  decode_eq : ∀ room, (encode a).depth ≤ room → decode room (encode a) = some a

section Generic

variable {α β γ : Type}

/-- A step over a list succeeds with its outcomes at the elements. -/
theorem mapM_eq_some {f : α → Option β} {g : α → β} :
    ∀ {xs : List α}, (∀ x ∈ xs, f x = some (g x)) → xs.mapM f = some (xs.map g)
  | [], _ => rfl
  | x :: xs, h => by
    rw [List.mapM_cons, h x List.mem_cons_self, mapM_eq_some fun x hx => h x (List.mem_cons_of_mem _ hx)]
    rfl

/-- A step that undoes another gives back the elements. -/
theorem mapM_map_eq_some {f : α → β} {g : β → Option α} {xs : List α}
    (h : ∀ x ∈ xs, g (f x) = some x) : (xs.map f).mapM g = some xs := by
  rw [List.mapM_map]
  exact (mapM_eq_some h).trans (congrArg some (List.map_id' xs))

/-- A name that no field has is missing. -/
theorem fieldOf?_missing {fields : List (String × Value)} {name : String}
    (h : name ∉ fields.map (·.1)) :
    (fields.map fun f => (some f.1, f.2)).filter (fun f => f.1 = some name) = [] := by
  rw [List.filter_eq_nil_iff]
  rintro f hf
  obtain ⟨g, hg, rfl⟩ := List.mem_map.mp hf
  rw [decide_eq_true_eq]
  intro heq
  exact h (List.mem_map.mpr ⟨g, hg, Option.some.inj heq⟩)

/-- The only value under a name is found. -/
theorem fieldOf?_map {name : String} :
    ∀ {fields : List (String × Value)}, (fields.map (·.1)).Nodup →
      fieldOf? (fields.map fun f => (some f.1, f.2)) name = some (fields.lookup name)
  | [], _ => rfl
  | (key, v) :: fields, hnodup => by
    obtain ⟨hnew, hnodup⟩ := List.nodup_cons.mp hnodup
    by_cases hkey : key = name
    · subst hkey
      rw [fieldOf?, List.map_cons, List.filter_cons_of_pos (by simp), fieldOf?_missing hnew,
        List.lookup_cons_self]
    · have hlookup : ((key, v) :: fields).lookup name = fields.lookup name := by
        rw [List.lookup_cons, beq_eq_false_iff_ne.mpr (Ne.symm hkey)]
      rw [hlookup, ← fieldOf?_map hnodup, fieldOf?, List.map_cons,
        List.filter_cons_of_neg (by simpa using hkey), fieldOf?]

/-- **The fields of a record are found by their names**, in whichever order they are asked for, if
no name stands twice. -/
theorem record?_obj {fields : List (String × Value)} (h : (fields.map (·.1)).Nodup)
    (names : List String) :
    record? names (.obj fields) = some (names.map fun name => fields.lookup name) := by
  have hnames : ((fields.map fun f => (some f.1, f.2)).all fun f => f.1.isSome) = true := by
    simp
  rw [Value.obj, record?, if_pos hnames]
  exact mapM_eq_some fun name _ => fieldOf?_map h

/-- Lists are faithful if their items are. -/
theorem list?_array {decode : Nat → Value → Option α} {encode : α → Value} {as : List α}
    (h : ∀ a ∈ as, Faithful decode encode a) {room : Nat}
    (hroom : (Value.array (as.map encode)).depth ≤ room) :
    list? room decode (.array (as.map encode)) = some as := by
  obtain ⟨inner, rfl, hinner⟩ := Value.depth_array_le.mp hroom
  exact mapM_map_eq_some fun a ha =>
    (h a ha).decode_eq inner (hinner _ (List.mem_map_of_mem ha))

theorem list?_flat {decode : Value → Option α} {encode : α → Value} {as : List α}
    (h : ∀ a ∈ as, decode (encode a) = some a) {room : Nat}
    (hroom : (Value.array (as.map encode)).depth ≤ room) :
    list? room (fun _ => decode) (.array (as.map encode)) = some as := by
  obtain ⟨inner, rfl, _⟩ := Value.depth_array_le.mp hroom
  exact mapM_map_eq_some h

/-- An entry behind all others is placed there. -/
theorem place_last {name : String} (value : α) :
    ∀ {entries : List (String × α)}, (∀ e ∈ entries, e.1 < name) →
      Table.place name value entries = entries ++ [(name, value)]
  | [], _ => rfl
  | (key, old) :: rest, h => by
    have hlt : key < name := h _ List.mem_cons_self
    have hnot : ¬name < key := fun hgt => String.lt_irrefl _ (String.lt_trans hlt hgt)
    have hne : name ≠ key := fun heq => String.lt_irrefl _ (heq ▸ hlt)
    rw [Table.place, if_neg hnot, if_neg hne,
      place_last value fun e he => h e (List.mem_cons_of_mem _ he), List.cons_append]

/-- Entries in name order are inserted one behind the other. -/
theorem entries_foldl_insert :
    ∀ {entries : List (String × α)} {t : Table α},
      (t.entries ++ entries).Pairwise (fun a b => a.1 < b.1) →
      (entries.foldl (fun t e => t.insert e.1 e.2) t).entries = t.entries ++ entries
  | [], t, _ => (List.append_nil _).symm
  | (name, value) :: rest, t, h => by
    have hlast : (t.insert name value).entries = t.entries ++ [(name, value)] :=
      place_last value fun e he => (List.pairwise_append.mp h).2.2 e he _ List.mem_cons_self
    have hnext : ((t.insert name value).entries ++ rest).Pairwise (fun a b => a.1 < b.1) := by
      rwa [hlast, List.append_assoc, List.singleton_append]
    rw [List.foldl_cons, entries_foldl_insert hnext, hlast, List.append_assoc, List.singleton_append]

theorem ofList_entries (t : Table α) : Table.ofList t.entries = t := by
  have hentries : (Table.ofList t.entries).entries = t.entries :=
    entries_foldl_insert (t := Table.empty) t.ascending
  refine Table.ext_find? fun name => ?_
  rw [Table.find?, hentries]
  rfl

/-- The fields of a map are those that were written. -/
theorem entries?_obj (fields : List (String × Value)) : entries? (.obj fields) = some fields :=
  mapM_map_eq_some fun _ _ => rfl

/-- **Tables are faithful if their values are.** -/
theorem table?_encodeTable {decode : Nat → Value → Option α} {encode : α → Value} {t : Table α}
    (h : ∀ e ∈ t.entries, Faithful decode encode e.2) {room : Nat}
    (hroom : (encodeTable encode t).depth ≤ room) :
    table? room decode (encodeTable encode t) = some t := by
  obtain ⟨inner, rfl, hinner⟩ := Value.depth_obj_le.mp hroom
  have hentries : ((t.entries.map fun e => (e.1, encode e.2)).mapM fun f =>
      (decode inner f.2).map (f.1, ·)) = some t.entries :=
    mapM_map_eq_some fun e he => by
      rw [(h e he).decode_eq inner (hinner _ (List.mem_map_of_mem he)), Option.map_some]
  show (entries? (encodeTable encode t) >>= fun fields =>
    (fields.mapM fun f => (decode inner f.2).map (f.1, ·)) >>= fun entries =>
      some (Table.ofList entries)) = some t
  rw [encodeTable, entries?_obj, Option.bind_eq_bind, Option.bind_some, hentries]
  exact congrArg some (ofList_entries t)

/-- The encoding of a table is plain if those of its values are. -/
theorem plain_encodeTable {encode : α → Value} {t : Table α}
    (h : ∀ e ∈ t.entries, (encode e.2).Plain) : (encodeTable encode t).Plain :=
  Value.plain_obj.mpr (List.forall_mem_map.mpr h)

end Generic

section Words

theorem uint32?_nat (n : UInt32) : uint32? (.nat n.toNat) = some n := by
  have hrange : 0 ≤ (n.toNat : Int) ∧ (n.toNat : Int) < 4294967296 :=
    ⟨Int.natCast_nonneg _, Int.ofNat_lt.mpr n.toNat_lt⟩
  rw [Value.nat, uint32?, if_pos hrange, Int.toNat_natCast, UInt32.ofNat_toNat]

theorem int32?_int (n : Int32) : int32? (.int n.toInt) = some n := by
  rw [int32?, if_pos ⟨n.le_toInt, n.toInt_lt⟩, Int32.ofInt_toInt]

theorem member?_write {α : Type} [DecidableEq α] {spelling : Spelling α} {a : α}
    (h : spelling.read? (spelling.write a) = some a) (room : Nat) :
    member? spelling room (.str (spelling.write a)) = some a :=
  h

/-- Values that may be absent are read back. -/
theorem nullable_ofOption {α : Type} {decode : Value → Option α} {encode : α → Value}
    {a : Option α} (h : ∀ b, a = some b → decode (encode b) = some b) (hnull : ∀ b, encode b ≠ .null) :
    nullable decode (.ofOption encode a) = some a := by
  cases a with
  | none => rfl
  | some b =>
      rw [Value.ofOption, nullable.eq_def]
      split
      · rename_i heq
        exact absurd heq (hnull b)
      · rw [h b rfl]
        rfl

theorem position?_obj {room : Nat} {file line : Value} {f : String} {l : UInt32}
    (hfile : text? file = some f) (hline : uint32? line = some l) :
    position? (room + 1) (.obj [("file", file), ("line", line)]) = some ⟨f, l⟩ := by
  rw [position?, enter, record?_obj (by simp)]
  simp [List.lookup_cons, required, hfile, hline]

theorem faithful_position (p : Position) : Faithful position? encodePosition p where
  plain := by simp [encodePosition]
  decode_eq := fun room h => by
    obtain ⟨inner, rfl, _⟩ := Value.depth_obj_le.mp h
    exact position?_obj rfl (uint32?_nat p.line)

end Words

section Expressions

variable {room : Nat}

/-- There is room for a node if there is room inside it for its content. -/
theorem depth_tagged_le {kind : String} {content : Value}
    (h : (tagged kind content).depth ≤ room) : ∃ inner, room = inner + 1 ∧ content.depth ≤ inner := by
  obtain ⟨inner, rfl, hinner⟩ := Value.depth_obj_le.mp h
  exact ⟨inner, rfl, hinner _ List.mem_cons_self⟩

/-- There is room for a node with fields if there is room for them inside the two objects. -/
theorem depth_tagged_obj_le {kind : String} {fields : List (String × Value)}
    (h : (tagged kind (.obj fields)).depth ≤ room) :
    ∃ inner, room = inner + 2 ∧ ∀ f ∈ fields, f.2.depth ≤ inner := by
  obtain ⟨outer, rfl, hcontent⟩ := depth_tagged_le h
  obtain ⟨inner, rfl, hfields⟩ := Value.depth_obj_le.mp hcontent
  exact ⟨inner, rfl, hfields⟩

theorem expr?_int {content : Value} {n : Int32} (h : int32? content = some n) :
    expr? (room + 1) (tagged "int" content) = some (.int n) := by
  rw [expr?]
  show (int32? content).map Expr.int = _
  rw [h]
  rfl

theorem expr?_index {array index : Value} {label : String} {e : Expr}
    (harray : text? array = some label) (hindex : expr? room index = some e) :
    expr? (room + 2) (tagged "index" (.obj [("array", array), ("index", index)])) =
      some (.index label e) := by
  rw [expr?]
  show (record? ["array", "index"] (.obj [("array", array), ("index", index)]) >>= _) = _
  rw [record?_obj (by simp)]
  simp [List.lookup_cons, required, harray, hindex]

theorem expr?_unary {op operand : Value} {o : MathOp} {e : Expr}
    (hop : mathOp? room op = some o) (hoperand : expr? room operand = some e) :
    expr? (room + 2) (tagged "unary" (.obj [("op", op), ("operand", operand)])) =
      some (.unary o e) := by
  rw [expr?]
  show (record? ["op", "operand"] (.obj [("op", op), ("operand", operand)]) >>= _) = _
  rw [record?_obj (by simp)]
  simp [List.lookup_cons, required, hop, hoperand]

theorem expr?_binary {op lhs rhs : Value} {o : MathOp} {l r : Expr} (hop : mathOp? room op = some o)
    (hlhs : expr? room lhs = some l) (hrhs : expr? room rhs = some r) :
    expr? (room + 2) (tagged "binary" (.obj [("op", op), ("lhs", lhs), ("rhs", rhs)])) =
      some (.binary o l r) := by
  rw [expr?]
  show (record? ["op", "lhs", "rhs"] (.obj [("op", op), ("lhs", lhs), ("rhs", rhs)]) >>= _) = _
  rw [record?_obj (by simp)]
  simp [List.lookup_cons, required, hop, hlhs, hrhs]

theorem expr?_compare {op lhs rhs : Value} {o : CompareOp} {l r : Expr}
    (hop : member? CompareOp.spelling room op = some o) (hlhs : expr? room lhs = some l)
    (hrhs : expr? room rhs = some r) :
    expr? (room + 2) (tagged "compare" (.obj [("op", op), ("lhs", lhs), ("rhs", rhs)])) =
      some (.compare o l r) := by
  rw [expr?]
  show (record? ["op", "lhs", "rhs"] (.obj [("op", op), ("lhs", lhs), ("rhs", rhs)]) >>= _) = _
  rw [record?_obj (by simp)]
  simp [List.lookup_cons, required, hop, hlhs, hrhs]

theorem expr?_call {function arguments : Value} {label : String} {es : List Expr}
    (hfunction : text? function = some label) (harguments : list? room expr? arguments = some es) :
    expr? (room + 2) (tagged "call" (.obj [("function", function), ("arguments", arguments)])) =
      some (.call label es) := by
  have hfields : record? ["function", "arguments"]
      (.obj [("function", function), ("arguments", arguments)]) =
      some [some function, some arguments] := by
    rw [record?_obj (by simp)]
    simp [List.lookup_cons]
  rw [expr?]
  show (record? ["function", "arguments"]
    (.obj [("function", function), ("arguments", arguments)]) >>= _) = _
  rw [hfields]
  show (text? function >>= fun label => list? room expr? arguments >>= fun es =>
    some (Expr.call label es)) = _
  rw [hfunction, harguments]
  rfl

theorem encodeExprs_eq_map : ∀ es : List Expr, encodeExprs es = es.map encodeExpr
  | [] => rfl
  | e :: rest => by rw [encodeExprs, List.map_cons, encodeExprs_eq_map rest]

mutual

/-- **Expressions are faithful.**  By recursion on the expression; the room that is asked for is the
depth of the encoded value, which is larger than that of its parts. -/
theorem faithful_expr : ∀ e : Expr, Faithful expr? encodeExpr e
  | .int n => by
    refine ⟨by simp [encodeExpr, tagged], fun room h => ?_⟩
    obtain ⟨inner, rfl, _⟩ := depth_tagged_le h
    exact expr?_int (int32?_int n)
  | .bool b | .var label => by
    refine ⟨by simp [encodeExpr, tagged], fun room h => ?_⟩
    obtain ⟨inner, rfl, _⟩ := depth_tagged_le h
    rw [expr?]
    rfl
  | .index array index => by
    have hindex := faithful_expr index
    refine ⟨by simp [encodeExpr, tagged, hindex.plain], fun room h => ?_⟩
    obtain ⟨inner, rfl, hfields⟩ := depth_tagged_obj_le h
    exact expr?_index rfl (hindex.decode_eq inner (hfields ("index", _) (by simp)))
  | .unary op operand => by
    have hoperand := faithful_expr operand
    refine ⟨by simp [encodeExpr, tagged, encodeMathOp, hoperand.plain], fun room h => ?_⟩
    obtain ⟨inner, rfl, hfields⟩ := depth_tagged_obj_le h
    exact expr?_unary (member?_write op.read?_write inner)
      (hoperand.decode_eq inner (hfields ("operand", _) (by simp)))
  | .binary op lhs rhs => by
    have hlhs := faithful_expr lhs
    have hrhs := faithful_expr rhs
    refine ⟨by simp [encodeExpr, tagged, encodeMathOp, hlhs.plain, hrhs.plain], fun room h => ?_⟩
    obtain ⟨inner, rfl, hfields⟩ := depth_tagged_obj_le h
    exact expr?_binary (member?_write op.read?_write inner)
      (hlhs.decode_eq inner (hfields ("lhs", _) (by simp)))
      (hrhs.decode_eq inner (hfields ("rhs", _) (by simp)))
  | .compare op lhs rhs => by
    have hlhs := faithful_expr lhs
    have hrhs := faithful_expr rhs
    refine ⟨by simp [encodeExpr, tagged, encodeCompareOp, hlhs.plain, hrhs.plain], fun room h => ?_⟩
    obtain ⟨inner, rfl, hfields⟩ := depth_tagged_obj_le h
    exact expr?_compare (member?_write op.read?_write inner)
      (hlhs.decode_eq inner (hfields ("lhs", _) (by simp)))
      (hrhs.decode_eq inner (hfields ("rhs", _) (by simp)))
  | .call function arguments => by
    have harguments := faithful_exprs arguments
    refine ⟨?_, fun room h => ?_⟩
    · simp [encodeExpr, tagged, encodeExprs_eq_map]
      exact fun e he => (harguments e he).plain
    · obtain ⟨inner, rfl, hfields⟩ := depth_tagged_obj_le h
      have hroom := hfields ("arguments", .array (encodeExprs arguments)) (by simp)
      rw [encodeExprs_eq_map] at hroom
      rw [encodeExpr, encodeExprs_eq_map]
      exact expr?_call rfl (list?_array harguments hroom)

theorem faithful_exprs : ∀ es : List Expr, ∀ e ∈ es, Faithful expr? encodeExpr e
  | [], _, he => nomatch he
  | e :: rest, e', he =>
    (List.mem_cons.mp he).elim (fun heq => heq ▸ faithful_expr e) (faithful_exprs rest e')

end

end Expressions

section Statements

variable {room : Nat}

theorem callParts?_obj {function arguments : Value} {label : String} {es : List Expr}
    (hfunction : text? function = some label) (harguments : list? room expr? arguments = some es) :
    callParts? (room + 1) (.obj [("function", function), ("arguments", arguments)]) =
      some (label, es) := by
  rw [callParts?, enter, record?_obj (by simp)]
  simp [List.lookup_cons, required, defaulted, hfunction, harguments]

theorem choice?_tagged (kind : String) (content : Value) :
    choice? (room + 1) (tagged kind content) = some (kind, some content) :=
  rfl

theorem stmt?_block {body : List Value} {b : List (Located Stmt)}
    (hbody : body.mapM (located? room) = some b) :
    stmt? (room + 2) (tagged "block" (.array body)) = some (.block b) := by
  rw [stmt?, choice?_tagged]
  show (body.mapM (located? room) >>= fun body => some (Stmt.block body)) = _
  rw [hbody]
  rfl

theorem stmt?_branch {condition consequent alternative : Value} {c : Expr} {t : Located Stmt}
    {e : Option (Located Stmt)} (hcondition : expr? room condition = some c)
    (hconsequent : located? room consequent = some t)
    (halternative : nullable (located? room) alternative = some e) :
    stmt? (room + 2) (tagged "if" (.obj [("condition", condition), ("then", consequent),
      ("otherwise", alternative)])) = some (.branch c t e) := by
  rw [stmt?, choice?_tagged]
  simp [plainStmt?, enter, record?_obj, List.lookup_cons, required, defaulted, hcondition,
    hconsequent, halternative]

theorem stmt?_loop {body : Value} {b : Located Stmt} (hbody : located? room body = some b) :
    stmt? (room + 1) (tagged "loop" body) = some (.loop b) := by
  rw [stmt?]
  show (located? room body >>= fun body => some (Stmt.loop body)) = _
  rw [hbody]
  rfl

theorem stmt?_assign {target op value : Value} {t v : Expr} {o : Option MathOp}
    (htarget : expr? room target = some t) (hop : nullable (mathOp? room) op = some o)
    (hvalue : expr? room value = some v) :
    stmt? (room + 2) (tagged "assign" (.obj [("target", target), ("op", op), ("value", value)])) =
      some (.assign t o v) := by
  rw [stmt?, choice?_tagged]
  simp [plainStmt?, enter, record?_obj, List.lookup_cons, required, defaulted, htarget, hop, hvalue]

theorem stmt?_call {content : Value} {label : String} {es : List Expr}
    (h : callParts? room content = some (label, es)) :
    stmt? (room + 1) (tagged "call" content) = some (.call label es) := by
  rw [stmt?]
  show (callParts? room content).map (fun parts => Stmt.call parts.1 parts.2) = _
  rw [h]
  rfl

theorem stmt?_ret {content : Value} {e : Option Expr} (h : nullable (expr? room) content = some e) :
    stmt? (room + 1) (tagged "return" content) = some (.ret e) := by
  rw [stmt?]
  show (nullable (expr? room) content).map Stmt.ret = _
  rw [h]
  rfl

theorem stmt?_timer {content : Value} {e : Expr} (h : expr? room content = some e) :
    stmt? (room + 1) (tagged "timer" content) = some (.timer e) := by
  rw [stmt?]
  show (expr? room content).map Stmt.timer = _
  rw [h]
  rfl

theorem stmt?_level {content : Value} {n : Int32} (h : int32? content = some n) :
    stmt? (room + 1) (tagged "level" content) = some (.level n) := by
  rw [stmt?]
  show (int32? content).map Stmt.level = _
  rw [h]
  rfl

/-- A statement without parts is read from its name alone. -/
theorem stmt?_str {kind : String} {s : Stmt} (h : plainStmt? kind = some s) :
    stmt? room (.str kind) = some s := by
  rw [stmt?]
  simp [choice?, Value.str, h, isUnit]

theorem located?_at {position value : Value} {p : Position} {s : Stmt}
    (hposition : nullable (position? room) position = some (some p)) (hvalue : stmt? room value = some s) :
    located? (room + 1) (.obj [("at", position), ("value", value)]) = some ⟨some p, s⟩ := by
  rw [located?, enter, record?_obj (by simp)]
  simp [List.lookup_cons, required, defaulted, hposition, hvalue]

/-- **A statement whose position was left out has none.**  The writer leaves it out just where the
position is not known, so that nothing is lost. -/
theorem located?_nowhere {value : Value} {s : Stmt} (hvalue : stmt? room value = some s) :
    located? (room + 1) (.obj [("value", value)]) = some ⟨none, s⟩ := by
  rw [located?, enter, record?_obj (by simp)]
  simp [List.lookup_cons, required, defaulted, hvalue]

theorem encodeStmts_eq_map : ∀ ss : List (Located Stmt), encodeStmts ss = ss.map encodeLocated
  | [] => rfl
  | s :: rest => by rw [encodeStmts, List.map_cons, encodeStmts_eq_map rest]

theorem encodeAlternative_eq (s : Option (Located Stmt)) :
    encodeAlternative s = .ofOption encodeLocated s := by
  cases s <;> rfl

/-- A statement is an object, with its position or without. -/
theorem encodeLocated_ne_null : ∀ s : Located Stmt, encodeLocated s ≠ .null
  | ⟨_, _⟩, h => nomatch h

theorem encodeExpr_ne_null (e : Expr) : encodeExpr e ≠ .null := by
  cases e <;> exact fun h => by cases h

theorem encodeMathOp_ne_null (o : MathOp) : encodeMathOp o ≠ .null :=
  fun h => nomatch h

/-- What may be absent is plain if what is there is. -/
theorem plain_ofOption {α : Type} {encode : α → Value} {a : Option α}
    (h : ∀ b, a = some b → (encode b).Plain) : (Value.ofOption encode a).Plain := by
  cases a with
  | none => exact .null
  | some b => exact h b rfl

/-- What may be absent is faithful if what is there is. -/
theorem nullable_faithful {α : Type} {decode : Nat → Value → Option α} {encode : α → Value}
    {a : Option α} (h : ∀ b, a = some b → Faithful decode encode b) (hnull : ∀ b, encode b ≠ .null)
    (hroom : (Value.ofOption encode a).depth ≤ room) :
    nullable (decode room) (.ofOption encode a) = some a :=
  nullable_ofOption (fun b hb => (h b hb).decode_eq room (by rwa [hb] at hroom)) hnull

/-- A statement with its position is faithful if the statement is. -/
theorem faithful_at {s : Stmt} (h : Faithful stmt? encodeStmt s) (position : Option Position) :
    Faithful located? encodeLocated ⟨position, s⟩ := by
  cases position with
  | none =>
      refine ⟨by simp [encodeLocated, optionalField, h.plain], fun room hroom => ?_⟩
      obtain ⟨inner, rfl, hfields⟩ := Value.depth_obj_le.mp hroom
      exact located?_nowhere (h.decode_eq inner (hfields ("value", _) (by simp [optionalField])))
  | some p =>
      have hp := faithful_position p
      refine ⟨by simp [encodeLocated, optionalField, hp.plain, h.plain], fun room hroom => ?_⟩
      obtain ⟨inner, rfl, hfields⟩ := Value.depth_obj_le.mp hroom
      have hat : nullable (position? inner) (encodePosition p) = some (some p) :=
        nullable_faithful (a := some p) (fun b _ => faithful_position b) (fun b h => by cases h)
          (hfields ("at", encodePosition p) (by simp [optionalField]))
      exact located?_at hat (h.decode_eq inner (hfields ("value", _) (by simp [optionalField])))

/-- The arguments of a call are read back with its name. -/
theorem callParts?_encode {function : String} {arguments : List Expr}
    (hroom : (Value.obj [("function", .str function),
      ("arguments", .array (encodeExprs arguments))]).depth ≤ room) :
    callParts? room (.obj [("function", .str function),
      ("arguments", .array (encodeExprs arguments))]) = some (function, arguments) := by
  obtain ⟨inner, rfl, hfields⟩ := Value.depth_obj_le.mp hroom
  have harguments := hfields ("arguments", .array (encodeExprs arguments)) (by simp)
  rw [encodeExprs_eq_map] at harguments ⊢
  exact callParts?_obj rfl (list?_array (faithful_exprs arguments) harguments)

theorem faithful_plainStmt {s : Stmt} {kind : String} (hencode : encodeStmt s = .str kind)
    (hdecode : plainStmt? kind = some s) : Faithful stmt? encodeStmt s where
  plain := hencode ▸ Value.plain_str kind
  decode_eq := fun _ _ => hencode ▸ stmt?_str hdecode

mutual

/-- **Statements are faithful**, together with lists of statements and with statements at their
positions. -/
theorem faithful_stmt : ∀ s : Stmt, Faithful stmt? encodeStmt s
  | .block body => by
    have hbody := faithful_stmts body
    refine ⟨?_, fun room h => ?_⟩
    · rw [encodeStmt, encodeStmts_eq_map]
      exact Value.plain_obj.mpr (List.forall_mem_singleton.mpr
        (Value.plain_array.mpr (List.forall_mem_map.mpr fun s hs => (hbody s hs).plain)))
    · rw [encodeStmt, encodeStmts_eq_map] at h ⊢
      obtain ⟨outer, rfl, hcontent⟩ := depth_tagged_le h
      obtain ⟨inner, rfl, hitems⟩ := Value.depth_array_le.mp hcontent
      exact stmt?_block (mapM_map_eq_some fun s hs =>
        (hbody s hs).decode_eq inner (hitems _ (List.mem_map_of_mem hs)))
  | .branch condition ⟨position, consequent⟩ alternative => by
    have hcondition := faithful_expr condition
    have hconsequent := faithful_at (faithful_stmt consequent) position
    have halternative := faithful_alternative alternative
    refine ⟨?_, fun room h => ?_⟩
    · have hplain := plain_ofOption fun b hb => (halternative b hb).plain
      simp [encodeStmt, tagged, encodeAlternative_eq, hcondition.plain, hconsequent.plain, hplain]
    · rw [encodeStmt, encodeAlternative_eq] at h ⊢
      obtain ⟨inner, rfl, hfields⟩ := depth_tagged_obj_le h
      exact stmt?_branch (hcondition.decode_eq inner (hfields ("condition", _) (by simp)))
        (hconsequent.decode_eq inner
          (hfields ("then", encodeLocated ⟨position, consequent⟩) (by simp)))
        (nullable_faithful halternative encodeLocated_ne_null
          (hfields ("otherwise", .ofOption encodeLocated alternative) (by simp)))
  | .loop ⟨position, body⟩ => by
    have hbody := faithful_at (faithful_stmt body) position
    refine ⟨by simp [encodeStmt, tagged, hbody.plain], fun room h => ?_⟩
    obtain ⟨inner, rfl, hcontent⟩ := depth_tagged_le h
    exact stmt?_loop (hbody.decode_eq inner hcontent)
  | .assign target op value => by
    have htarget := faithful_expr target
    have hvalue := faithful_expr value
    refine ⟨?_, fun room h => ?_⟩
    · have hop : (Value.ofOption encodeMathOp op).Plain := plain_ofOption fun o _ => .string _
      simp [encodeStmt, tagged, htarget.plain, hvalue.plain, hop]
    · obtain ⟨inner, rfl, hfields⟩ := depth_tagged_obj_le h
      exact stmt?_assign (htarget.decode_eq inner (hfields ("target", _) (by simp)))
        (nullable_ofOption (fun o _ => member?_write o.read?_write inner) encodeMathOp_ne_null)
        (hvalue.decode_eq inner (hfields ("value", _) (by simp)))
  | .call function arguments => by
    refine ⟨(faithful_expr (.call function arguments)).plain, fun room h => ?_⟩
    obtain ⟨inner, rfl, hcontent⟩ := depth_tagged_le h
    exact stmt?_call (callParts?_encode hcontent)
  | .ret value => by
    refine ⟨?_, fun room h => ?_⟩
    · have hvalue : (Value.ofOption encodeExpr value).Plain :=
        plain_ofOption fun e _ => (faithful_expr e).plain
      simp [encodeStmt, tagged, hvalue]
    · obtain ⟨inner, rfl, hcontent⟩ := depth_tagged_le h
      exact stmt?_ret (nullable_faithful (fun e _ => faithful_expr e) encodeExpr_ne_null hcontent)
  | .timer value => by
    have hvalue := faithful_expr value
    refine ⟨by simp [encodeStmt, tagged, hvalue.plain], fun room h => ?_⟩
    obtain ⟨inner, rfl, hcontent⟩ := depth_tagged_le h
    exact stmt?_timer (hvalue.decode_eq inner hcontent)
  | .level n => by
    refine ⟨by simp [encodeStmt, tagged], fun room h => ?_⟩
    obtain ⟨inner, rfl, _⟩ := depth_tagged_le h
    exact stmt?_level (int32?_int n)
  | .breakLoop => faithful_plainStmt rfl rfl
  | .continueLoop => faithful_plainStmt rfl rfl
  | .halt => faithful_plainStmt rfl rfl
  | .pause => faithful_plainStmt rfl rfl
  | .reset => faithful_plainStmt rfl rfl
  | .restart => faithful_plainStmt rfl rfl
  | .nop => faithful_plainStmt rfl rfl

theorem faithful_alternative :
    ∀ alternative : Option (Located Stmt), ∀ s, alternative = some s →
      Faithful located? encodeLocated s
  | none, _, h => nomatch h
  | some ⟨position, s⟩, _, h => Option.some.inj h ▸ faithful_at (faithful_stmt s) position

theorem faithful_stmts :
    ∀ ss : List (Located Stmt), ∀ s ∈ ss, Faithful located? encodeLocated s
  | [], _, hs => nomatch hs
  | ⟨position, s⟩ :: rest, s', hs =>
    (List.mem_cons.mp hs).elim (fun heq => heq ▸ faithful_at (faithful_stmt s) position)
      (faithful_stmts rest s')

end

end Statements

end Model

end Stackless
