import Mathlib.Data.List.Nodup
import Mathlib.Logic.Relation
import Stackless.Proofs.CallGraphs
import Stackless.Proofs.Emissions
import Stackless.Proofs.Lineage
import Stackless.Proofs.VectorTables

/-!
# The labels of the output

A line **mentions** a label if it defines it, jumps to it, calls it, or heads the section
of it.  What the lines of an op mention is what its instruction names
(`mentions_opLines`), so the mentions of a section are read off the final body of its
function, and those of the output off the layout.

* `named_vectors` — the vectors jump to the entry or to handlers;
* `Stages.exists_section` — a section defines its own label and numbered markers, jumps
  only to what it defines, and calls functions that are reached;
* `nodup_defined` — no label is defined twice;
* `Stages.mem_order_iff` — there is a section for exactly the functions that are called,
  directly or not, by the entry or a handler.

Numbered markers have one dot more than labels, so labels with one dot are never taken
for the markers of another function.
-/

namespace Stackless.Assembly

open Flat (Op Instruction codeOf)

/-- What a line does with a label. The heading of a section names its function for the reader, and
only a label line defines anything. -/
inductive Role where
  | heads
  | defines
  | jumps
  | calls
  deriving DecidableEq

/-- The label that a command mentions, and what it does with it. -/
def Command.mention? : Command → Option (Role × String)
  | .jump name | .jumpIf _ name => some (.jumps, name)
  | .call name => some (.calls, name)
  | _ => none

/-- The label that a line mentions, and what it does with it. -/
def Line.mention? : Line → Option (Role × String)
  | .comment text => some (.heads, text)
  | .label name => some (.defines, name)
  | .command c => c.mention?
  | _ => none

/-- The label that an instruction names, and what it does with it. -/
def naming? : Instruction → Option (Role × String)
  | .marker name => some (.defines, name)
  | .jump target | .branch _ _ target => some (.jumps, target.marker)
  | .call function _ => some (.calls, function)
  | _ => none

/-- All that lines mention, in order. -/
def mentions (lines : List Line) : List (Role × String) :=
  lines.filterMap Line.mention?

@[simp]
theorem mentions_nil : mentions [] = [] :=
  rfl

@[simp]
theorem mentions_append (xs ys : List Line) : mentions (xs ++ ys) = mentions xs ++ mentions ys :=
  List.filterMap_append

namespace Writing

open Model (MathOp CompareOp)
open Emission

variable {w : Writing} {index : Nat} {lines : List Line} {u : Unit}

@[simp]
theorem mentions_copied (width : Flat.Width) (target source : Nat) :
    mentions (copied width target source) = [] := by
  cases width with
  | word => rfl
  | bit =>
      by_cases h : target = source
      · simp [copied, h]
      · simp [copied, h, mentions, Line.mention?, Command.mention?]

theorem mentions_placed (source : Source) {use : Nat → Command}
    (h : ∀ address, (use address).mention? = none) : mentions (placed source use) = [] := by
  cases source with
  | cell address => simp [placed, mentions, Line.mention?, h]
  | immediate value => simp [placed, mentions, Line.mention?, h, show (Command.move _ _).mention? = none from rfl]

theorem mentions_loaded (op : Op) {put : Nat → Command}
    (h : ∀ address, (put address).mention? = none) : mentions (loaded op put) = [] := by
  unfold loaded
  cases op.offset.absolute? with
  | none => rfl
  | some address => simp [mentions, Line.mention?, h]

theorem mentions_passed {slot : Nat} {op : Op} (h : passed? slot op = some lines) :
    mentions lines = [] := by
  unfold passed? at h
  split at h
  all_goals cases h
  · rfl
  · rfl
  · exact mentions_copied ..
  · rfl
  · rfl

@[simp]
theorem mentions_kept (op : CompareOp) (self : Op) : mentions (kept op self) = [] := by
  unfold kept
  split
  · rfl
  · rfl

@[simp]
theorem mentions_reckoned (op : WordOp) (target : Nat) (left right : Source) :
    mentions (reckoned op target left right) = [] := by
  unfold reckoned
  split
  · rfl
  · rfl

@[simp]
theorem mentions_joined (op : BitOp) (target left right : Nat) :
    mentions (joined op target left right) = [] := by
  unfold joined
  split
  · rfl
  · split
    · rfl
    · rfl

@[simp]
theorem mentions_assigned (place : Place) (address : Nat) (op : Option WordOp) (source : Source) :
    mentions (assigned place address op source) = [] := by
  cases op with
  | none =>
      cases place with
      | register => rfl
      | memory | port => exact mentions_placed source fun _ => rfl
  | some op => cases place <;> rfl

/-- A comparison mentions no label. -/
theorem mentions_compare {op : CompareOp} {width : Flat.Width} {lhs rhs : Nat}
    (h : (w.compare index op width lhs rhs).Writes lines u) : mentions lines = [] := by
  obtain ⟨self, _, h⟩ := compare_writes.mp h
  cases width with
  | word =>
      obtain ⟨left, right, _, _, rfl⟩ := h
      rw [mentions_append, mentions_kept, mentions_placed left fun _ => rfl]
      rfl
  | bit =>
      obtain ⟨left, right, _, _, rfl⟩ := h
      exact mentions_kept op self

/-- An operation on bits mentions no label. -/
theorem mentions_mathBit {op : MathOp} {lhs : Nat} {rhs : Option Nat}
    (h : (w.mathBit index op lhs rhs).Writes lines u) : mentions lines = [] := by
  obtain ⟨o, target, left, _, _, _, h⟩ := mathBit_writes.mp h
  cases rhs with
  | none =>
      subst h
      rfl
  | some rhs =>
      obtain ⟨right, _, rfl⟩ := h
      exact mentions_joined ..

/-- An assignment to a truth variable mentions no label. -/
theorem mentions_assignBit {op : Option MathOp} {target value : Nat}
    (h : (w.assignBit index op target value).Writes lines u) : mentions lines = [] := by
  obtain ⟨place, source, _, _, h⟩ := assignBit_writes.mp h
  split at h
  · subst h
    rfl
  · obtain ⟨address, _, rfl⟩ := h
    exact mentions_copied ..
  · obtain ⟨o, address, _, _, rfl⟩ := h
    rfl

theorem mentions_elementAddress {array element : Nat}
    (h : (w.elementAddress index array element).Writes lines u) : mentions lines = [] := by
  obtain ⟨target, source, op', base, _, _, _, _, rfl⟩ := elementAddress_writes.mp h
  rfl

theorem mentions_pass {slot value : Nat} (h : (w.pass slot value).Writes lines u) :
    mentions lines = [] := by
  obtain ⟨source, _, hpassed⟩ := pass_writes.mp h
  exact mentions_passed hpassed

/-- **The lines of an op mention what its instruction names**, and nothing else. -/
theorem mentions_opLines {op : Op} (h : (w.opLines index op).Writes lines u) :
    mentions lines = (naming? op.instruction).toList := by
  rw [opLines_writes] at h
  generalize op.instruction = instruction at h
  cases instruction with
  | removed | register | bit | ram | rom | portOut | marker | jump | level | halt | pause | reset
  | restart | nop =>
      obtain rfl := h
      rfl
  | int | bool =>
      obtain rfl := h
      exact mentions_loaded op fun _ => rfl
  | portIn =>
      obtain ⟨port, _, address, _, rfl⟩ := h
      rfl
  | branch expected condition target =>
      obtain ⟨condition', _, h⟩ := branch_writes.mp h
      split at h
      · subst h
        rfl
      · obtain ⟨address, _, rfl⟩ := h
        rfl
  | compare => exact mentions_compare h
  | math op width lhs rhs =>
      cases width with
      | word =>
          obtain ⟨o, target, left, right, _, _, _, _, rfl⟩ := mathWord_writes.mp h
          exact mentions_reckoned ..
      | bit => exact mentions_mathBit h
  | assign op width target value =>
      cases width with
      | word =>
          obtain ⟨first, hfirst, rfl⟩ := h
          obtain ⟨o, source, op', place, address, _, _, _, _, _, rfl⟩ := assignWord_writes.mp hfirst
          rw [mentions_append, mentions_assigned]
          rfl
      | bit =>
          obtain ⟨first, hfirst, rfl⟩ := h
          rw [mentions_append, mentions_assignBit hfirst]
          rfl
  | element =>
      obtain ⟨address, _, first, hfirst, rfl⟩ := h
      rw [mentions_append, mentions_elementAddress hfirst]
      rfl
  | address => exact mentions_elementAddress h
  | call function result =>
      cases result with
      | none =>
          obtain rfl := h
          rfl
      | some width =>
          obtain ⟨address, _, slot, _, rfl⟩ := h
          exact congrArg (_ :: ·) (mentions_copied ..)
  | parameter =>
      obtain ⟨slot, _, h⟩ := h
      exact mentions_pass h
  | ret value =>
      cases value with
      | none =>
          obtain rfl := h
          rfl
      | some value =>
          obtain ⟨slot, _, first, hfirst, rfl⟩ := h
          rw [mentions_append, mentions_pass hfirst]
          rfl
  | timer =>
      obtain ⟨source, _, rfl⟩ := h
      rfl

/-- What the lines of ops mention is what their instructions name. -/
theorem mentions_written {ops : List Op}
    (h : ∀ (n : Nat) op, ops[n]? = some op → (w.opLines (index + n) op).outcome = .ok ()) :
    mentions (w.written index ops) = (codeOf ops).filterMap naming? := by
  induction ops generalizing index with
  | nil => rfl
  | cons op rest ih =>
      have hrest : mentions (w.written (index + 1) rest) = (codeOf rest).filterMap naming? := by
        apply ih
        intro n op' hop'
        have hnext := h (n + 1) op' hop'
        rwa [show index + 1 + n = index + (n + 1) by omega]
      have hfirst : mentions (w.opLines index op).lines = (naming? op.instruction).toList :=
        mentions_opLines (writes_of_outcome (h 0 op rfl))
      show mentions ((w.opLines index op).lines ++ w.written (index + 1) rest) = _
      rw [mentions_append, hrest, hfirst]
      cases hname : naming? op.instruction with
      | none => simp [codeOf, hname]
      | some name => simp [codeOf, hname]

end Writing

/-- A section mentions its label at the head, and then what its function names. -/
theorem mentions_section {p : Flat.Program} {addresses : Table Nat} {label : String}
    (h : Writable p addresses label) : ∃ function, p.find? label = some function ∧
      mentions (sectionLines p addresses label) =
        (.heads, label) :: (codeOf function.body).filterMap naming? := by
  obtain ⟨function, hfind, hall⟩ := h
  refine ⟨function, hfind, ?_⟩
  rw [sectionLines, hfind]
  rw [mentions_append, Writing.mentions_written]
  · rfl
  · intro n op hop
    rw [Nat.zero_add]
    exact hall n op hop

/-- The sixteen vectors. A level without a handler goes to the entry, and so does level 0. -/
def vectorTargets (model : Model.Program) : List String :=
  (List.range Model.levelCount).map fun level => (model.vectors.get level).getD model.entry

/-- What stands before the sections mentions the vectors, as jumps. -/
theorem mentions_prelude (model : Model.Program) :
    mentions (preludeLines model) = (vectorTargets model).map (Role.jumps, ·) := by
  have hconstants : mentions (constantLines model) = [] := by
    rw [constantLines, mentions_append]
    refine List.append_eq_nil_iff.mpr ⟨List.filterMap_eq_nil_iff.mpr ?_, rfl⟩
    intro l hl
    rcases List.mem_cons.mp hl with rfl | hl
    · rfl
    · obtain ⟨symbol, _, rfl⟩ := List.mem_map.mp hl
      rfl
  have hvectors : mentions (vectorLines model) = (vectorTargets model).map (Role.jumps, ·) := by
    rw [vectorLines, mentions_append]
    show List.filterMap Line.mention? (List.map _ _) ++ [] = _
    rw [List.append_nil, List.filterMap_map, vectorTargets, List.map_map, ← List.filterMap_eq_map]
    rfl
  show mentions (constantLines model ++ vectorLines model) = _
  rw [mentions_append, hconstants, hvectors]
  rfl

/-- How often a label is defined is how often lines mention it so. -/
theorem count_label (lines : List Line) (name : String) :
    lines.count (.label name) = (mentions lines).count (.defines, name) := by
  rw [mentions, List.count_filterMap]
  refine List.countP_congr fun l _ => ?_
  rw [beq_iff_eq, beq_iff_eq]
  cases l with
  | command c => cases c <;> simp [Line.mention?, Command.mention?]
  | _ => simp [Line.mention?]

end Stackless.Assembly

namespace Stackless

open Flat (Op Instruction codeOf markerName)
open Assembly

namespace Flat

/-- A label with one dot and no white space, as labels of functions are: a module, a dot and a
name. -/
structure Labelled (label : String) : Prop where
  dot : label.toList.count '.' = 1
  solid : ∀ ch ∈ label.toList, ch.isWhitespace = false

instance (label : String) : Decidable (Labelled label) :=
  decidable_of_iff (label.toList.count '.' = 1 ∧ label.toList.all (!·.isWhitespace) = true)
    ⟨fun h => ⟨h.1, by simpa using h.2⟩, fun h => ⟨h.1, by simpa using h.2⟩⟩

theorem toList_markerName (label : String) (n : Nat) :
    (markerName label n).toList = label.toList ++ '.' :: Nat.toDigits 10 n := by
  rw [markerName, String.toList_append, String.toList_append, Nat.toString_eq_repr, Nat.toList_repr,
    List.append_assoc]
  rfl

/-- A number is written without dots and white space. -/
theorem not_isWhitespace_of_mem_digits {n : Nat} {ch : Char} (h : ch ∈ Nat.toDigits 10 n) :
    ch ≠ '.' ∧ ch.isWhitespace = false := by
  have hdigit := Nat.isDigit_of_mem_toDigits (by decide) (by decide) h
  constructor
  · rintro rfl
    cases hdigit
  · cases hspace : ch.isWhitespace with
    | false => rfl
    | true =>
        simp only [Char.isWhitespace, Bool.or_eq_true, decide_eq_true_eq] at hspace
        rcases hspace with ((rfl | rfl) | rfl) | rfl
        all_goals cases hdigit

/-- A marker has one dot more than its function. -/
theorem count_dot_markerName (label : String) (n : Nat) :
    (markerName label n).toList.count '.' = label.toList.count '.' + 1 := by
  have hnone : (Nat.toDigits 10 n).count '.' = 0 :=
    List.count_eq_zero.mpr fun h => (not_isWhitespace_of_mem_digits h).1 rfl
  rw [toList_markerName, List.count_append, List.count_cons_self, hnone]

/-- **A marker tells its function.** -/
theorem markerName_label_inj {label label' : String} {m n : Nat}
    (h : markerName label m = markerName label' n) : label = label' := by
  have hchars := congrArg String.toList h
  rw [toList_markerName, toList_markerName] at hchars
  have hcut : ∀ {c : List Char} {d : Nat} {rest : List Char},
      '.' :: Nat.toDigits 10 d = c ++ '.' :: rest → c = [] := by
    intro c d rest heq
    cases c with
    | nil => rfl
    | cons ch c =>
        have hmem : '.' ∈ Nat.toDigits 10 d := by
          rw [(List.cons.inj heq).2]
          exact List.mem_append_right _ List.mem_cons_self
        exact absurd rfl (not_isWhitespace_of_mem_digits hmem).1
  apply String.toList_inj.mp
  rcases List.append_eq_append_iff.mp hchars with ⟨c, hc, hrest⟩ | ⟨c, hc, hrest⟩
  · rw [hc, hcut hrest, List.append_nil]
  · rw [hc, hcut hrest, List.append_nil]

end Flat

namespace Stages.Member

variable {model : Model.Program} {c : Compilation} {s : Stages model c} {label : String}

/-- The markers that are left in the end are those of the simplified body. -/
theorem marker_final_iff (m : s.Member label) {i : Nat} {name : String} :
    (codeOf m.final.body)[i]? = some (.marker name) ↔
      (codeOf m.simple.body)[i]? = some (.marker name) :=
  ⟨fun h => m.simple_of_codeOf_final h nofun, fun h => m.final_of_simple h rfl nofun⟩

/-- **The markers of a function**: the entry, and behind it numbered ones. -/
theorem marker_cases (m : s.Member label) {i : Nat} {name : String}
    (h : (codeOf m.final.body)[i]? = some (.marker name)) :
    (i = 0 ∧ name = label) ∨ (1 ≤ i ∧ ∃ n, name = markerName label n) := by
  obtain ⟨l⟩ := m.exists_lineage
  have hsimple := m.marker_final_iff.mp h
  by_cases hzero : i = 0
  · subst hzero
    obtain ⟨op, hop, hentry⟩ := l.entry
    rw [Flat.codeOf_getElem? hop, hentry] at hsimple
    cases hsimple
    exact .inl ⟨rfl, rfl⟩
  · have hpos : 1 ≤ i := by omega
    exact .inr ⟨hpos, l.marker_name (Flat.marks_iff.mpr ⟨hpos, hsimple⟩)⟩

theorem markerName_ne (label : String) (n : Nat) : markerName label n ≠ label := by
  intro heq
  have hcount := Flat.count_dot_markerName label n
  rw [heq] at hcount
  omega

/-- **No marker stands twice.** -/
theorem marker_once (m : s.Member label) {i j : Nat} {name : String}
    (hi : (codeOf m.final.body)[i]? = some (.marker name))
    (hj : (codeOf m.final.body)[j]? = some (.marker name)) : i = j := by
  obtain ⟨l⟩ := m.exists_lineage
  rcases m.marker_cases hi with ⟨rfl, rfl⟩ | ⟨hposi, n, hn⟩
  · rcases m.marker_cases hj with ⟨rfl, _⟩ | ⟨_, n', hn'⟩
    · rfl
    · exact absurd hn'.symm (markerName_ne _ n')
  · rcases m.marker_cases hj with ⟨_, hlabel⟩ | ⟨hposj, _⟩
    · exact absurd (hn.symm.trans hlabel) (markerName_ne _ n)
    · exact l.pointed.2 i j name (Flat.marks_iff.mpr ⟨hposi, m.marker_final_iff.mp hi⟩)
        (Flat.marks_iff.mpr ⟨hposj, m.marker_final_iff.mp hj⟩)

/-- **Every jump has its marker.** -/
theorem jump_marked (m : s.Member label) {i : Nat} {x : Instruction} {target : Flat.Target}
    (hx : (codeOf m.final.body)[i]? = some x) (htarget : x.target? = some target) :
    ∃ j : Nat, (codeOf m.final.body)[j]? = some (.marker target.marker) := by
  obtain ⟨l⟩ := m.exists_lineage
  have hlive : x ≠ .removed := by
    rintro rfl
    cases htarget
  have hsimple := m.simple_of_codeOf_final hx hlive
  obtain ⟨j, hmarks, _⟩ := l.pointed.1 target
    (Flat.aims_iff.mpr ⟨x, List.mem_of_getElem? hsimple, htarget⟩)
  exact ⟨j, m.marker_final_iff.mpr (Flat.marks_iff.mp hmarks).2⟩

theorem entry_final (m : s.Member label) : (codeOf m.final.body)[0]? = some (.marker label) := by
  obtain ⟨l⟩ := m.exists_lineage
  obtain ⟨op, hop, hentry⟩ := l.entry
  refine m.marker_final_iff.mpr ?_
  rw [Flat.codeOf_getElem? hop, hentry]

/-- **Every call reaches a function of the layout.** -/
theorem call_reached (m : s.Member label) (hlabel : label ∈ c.layout.order) {i : Nat}
    {callee : String} {result : Option Flat.Width}
    (hx : (codeOf m.final.body)[i]? = some (.call callee result)) : callee ∈ c.layout.order := by
  rw [s.order_eq] at hlabel ⊢
  obtain ⟨op, hop, hcall⟩ := Flat.exists_of_codeOf_getElem? (m.simple_of_codeOf_final hx nofun)
  obtain ⟨t, child, ht, _, hchild, hname⟩ :=
    s.exists_callee hlabel m.simple_eq (List.mem_of_getElem? hop) hcall
  refine s.reachable_of_occurs ⟨child, ?_, hname⟩
  cases t with
  | node name calls => exact Calls.CallTree.Within.trans (.under hchild .refl) ht

end Stages.Member

/-- A label by which the program is entered: the entry, or the handler of a level. -/
def Model.Program.Entered (model : Model.Program) (label : String) : Prop :=
  label = model.entry ∨ ∃ level, model.vectors.get level = some label

/-- The calls of a function stand in its body. -/
theorem Flat.mem_calls_iff {f : Flat.Function} {callee : String} :
    callee ∈ f.calls.map (·.1) ↔ ∃ (i : Nat) (result : Option Flat.Width),
      (codeOf f.body)[i]? = some (.call callee result) := by
  unfold Flat.Function.calls
  rw [List.mem_map]
  constructor
  · rintro ⟨⟨_, position⟩, hmem, rfl⟩
    obtain ⟨op, hop, hcall⟩ := List.mem_filterMap.mp hmem
    split at hcall
    · rename_i result hinstr
      cases hcall
      obtain ⟨i, hi⟩ := List.mem_iff_getElem?.mp hop
      exact ⟨i, result, by rw [Flat.codeOf_getElem? hi, hinstr]⟩
    · cases hcall
  · rintro ⟨i, result, hi⟩
    obtain ⟨op, hop, hinstr⟩ := Flat.exists_of_codeOf_getElem? hi
    refine ⟨(callee, op.position), List.mem_filterMap.mpr ⟨op, List.mem_of_getElem? hop, ?_⟩, rfl⟩
    rw [hinstr]

namespace Stages

open Relation (ReflTransGen)

variable {model : Model.Program} {c : Compilation}

/-- What stands in a call tree is called, directly or not, from its root. -/
theorem calls_of_within (s : Stages model c) {t u : Calls.CallTree}
    (hu : Calls.CallTree.Within u c.forest.main) (h : Calls.CallTree.Within t u) :
    ReflTransGen (Flat.Directly c.program) u.name t.name := by
  induction h with
  | refl => exact .refl
  | @under name calls child hchild _ ih =>
      have hbelow : Calls.CallTree.Within child c.forest.main := .trans (.under hchild .refl) hu
      refine .head ?_ (ih hbelow)
      obtain ⟨m⟩ := s.exists_member (s.reachable_of_occurs ⟨_, hu, rfl⟩)
      obtain ⟨f, hf, hcalls⟩ := (s.rooted.main_unfolds.within hu).root
      rw [m.simple_eq] at hf
      cases hf
      refine ⟨m.final, m.final_eq, Flat.mem_calls_iff.mpr ?_⟩
      have hmem : child.name ∈ m.simple.calls.map (·.1) := by
        rw [← hcalls]
        exact List.mem_map_of_mem hchild
      obtain ⟨i, result, hi⟩ := Flat.mem_calls_iff.mp hmem
      exact ⟨i, result, m.final_of_simple hi rfl nofun⟩

/-- **The functions of the layout** are those that the entry or a handler calls, directly
or not. -/
theorem mem_order_iff (s : Stages model c) {label : String} :
    label ∈ c.layout.order ↔
      ∃ root, model.Entered root ∧ ReflTransGen (Flat.Directly c.program) root label := by
  constructor
  · intro h
    rw [s.order_eq] at h
    rcases s.rooted.mem_reachable_iff.mp h with ⟨t, ht, rfl⟩ | hhandler
    · refine ⟨model.entry, .inl rfl, ?_⟩
      rw [← s.rooted.main_name]
      exact s.calls_of_within .refl ht
    · obtain ⟨level, hlevel⟩ := s.rooted.mem_handlers_iff.mpr hhandler
      exact ⟨label, .inr ⟨level, Model.Vectors.mem_handlers_iff.mp hlevel⟩, .refl⟩
  · rintro ⟨root, hroot, hcalls⟩
    induction hcalls with
    | refl =>
        rw [s.order_eq]
        rcases hroot with rfl | ⟨level, hlevel⟩
        · exact s.reachable_of_occurs (s.rooted.main_name ▸ Calls.CallTree.occurs_name _)
        · exact s.reachable_of_handler (s.mem_handlerNames (Model.Vectors.mem_handlers_iff.mpr hlevel))
    | @tail caller callee _ hdirect ih =>
        obtain ⟨f, hf, hmem⟩ := hdirect
        obtain ⟨m⟩ := s.exists_member (s.order_eq ▸ ih)
        rw [m.final_eq] at hf
        cases hf
        obtain ⟨i, result, hi⟩ := Flat.mem_calls_iff.mp hmem
        exact m.call_reached ih hi

end Stages

namespace Assembly

variable {model : Model.Program} {c : Compilation} {s : Stages model c} {label : String}

theorem naming?_eq_defines {x : Instruction} {name : String} :
    naming? x = some (.defines, name) ↔ x = .marker name := by
  cases x <;> simp [naming?]

/-- A label is jumped to by a jump or a branch. -/
theorem naming?_eq_jumps {x : Instruction} {name : String} :
    naming? x = some (.jumps, name) ↔ ∃ target, x.target? = some target ∧ target.marker = name := by
  cases x <;> simp [naming?, Instruction.target?]

theorem naming?_eq_calls {x : Instruction} {name : String} :
    naming? x = some (.calls, name) ↔ ∃ result, x = .call name result := by
  cases x <;> simp [naming?]

/-- The section of a function that went through the phases. -/
theorem mentions_member (m : s.Member label)
    (h : Writable c.program c.layout.addresses label) :
    mentions (sectionLines c.program c.layout.addresses label) =
      (.heads, label) :: (codeOf m.final.body).filterMap naming? := by
  obtain ⟨function, hfind, hmentions⟩ := mentions_section h
  rw [m.final_eq] at hfind
  cases hfind
  exact hmentions

/-- What a section mentions, apart from its head, its function names. -/
theorem mem_mentions_member (m : s.Member label) (h : Writable c.program c.layout.addresses label)
    {role : Role} {name : String} (hrole : role ≠ .heads) :
    (role, name) ∈ mentions (sectionLines c.program c.layout.addresses label) ↔
      ∃ (i : Nat) (x : Instruction), (codeOf m.final.body)[i]? = some x ∧
        naming? x = some (role, name) := by
  rw [mentions_member m h, List.mem_cons, List.mem_filterMap]
  constructor
  · rintro (heq | ⟨x, hx, hname⟩)
    · exact absurd (congrArg Prod.fst heq) hrole
    · obtain ⟨i, hi⟩ := List.mem_iff_getElem?.mp hx
      exact ⟨i, x, hi, hname⟩
  · rintro ⟨i, x, hi, hname⟩
    exact .inr ⟨x, List.mem_of_getElem? hi, hname⟩

/-- What is defined, in order. -/
def defined (ms : List (Role × String)) : List (Role × String) :=
  ms.filter fun m => m.1 = .defines

/-- No label is defined twice in a section. -/
theorem nodup_defined_section (m : s.Member label)
    (h : Writable c.program c.layout.addresses label) :
    (defined (mentions (sectionLines c.program c.layout.addresses label))).Nodup := by
  rw [mentions_member m h]
  show (defined ((codeOf m.final.body).filterMap naming?)).Nodup
  rw [defined, List.Nodup, List.pairwise_filter, List.pairwise_filterMap, List.pairwise_iff_getElem]
  rintro i j hi hj hlt ⟨role, name⟩ hname ⟨role', name'⟩ hname' hrole _ heq
  cases heq
  obtain rfl : role = .defines := of_decide_eq_true hrole
  have hat : ∀ {k : Nat} (hk : k < (codeOf m.final.body).length),
      naming? (codeOf m.final.body)[k] = some (.defines, name) →
      (codeOf m.final.body)[k]? = some (.marker name) := by
    intro k hk hdefines
    rw [List.getElem?_eq_getElem hk, naming?_eq_defines.mp hdefines]
  have hsame : i = j := m.marker_once (hat hi hname) (hat hj hname')
  omega

/-- What a section defines is its label, or a numbered marker of it. -/
theorem defined_cases (m : s.Member label) (h : Writable c.program c.layout.addresses label)
    {role : Role} {name : String}
    (hmem : (role, name) ∈ defined (mentions (sectionLines c.program c.layout.addresses label))) :
    name = label ∨ ∃ n, name = markerName label n := by
  obtain ⟨hmem, hrole⟩ := List.mem_filter.mp hmem
  obtain rfl : role = .defines := of_decide_eq_true hrole
  obtain ⟨i, x, hx, hname⟩ := (mem_mentions_member m h (by decide)).mp hmem
  rw [naming?_eq_defines.mp hname] at hx
  rcases m.marker_cases hx with ⟨_, hlabel⟩ | ⟨_, hnumber⟩
  · exact .inl hlabel
  · exact .inr hnumber

/-- **Sections of different functions define different labels**, if labels have one dot. -/
theorem defined_disjoint {label' : String} (m : s.Member label) (m' : s.Member label')
    (h : Writable c.program c.layout.addresses label)
    (h' : Writable c.program c.layout.addresses label') (hne : label ≠ label')
    (hdot : label.toList.count '.' = 1) (hdot' : label'.toList.count '.' = 1) :
    (defined (mentions (sectionLines c.program c.layout.addresses label))).Disjoint
      (defined (mentions (sectionLines c.program c.layout.addresses label'))) := by
  rintro ⟨role, name⟩ hmem hmem'
  have hnot : ∀ {f g : String}, f.toList.count '.' = 1 → g.toList.count '.' = 1 →
      ∀ n, f ≠ markerName g n := by
    rintro f g hf hg n rfl
    rw [Flat.count_dot_markerName] at hf
    omega
  rcases defined_cases m h hmem with rfl | ⟨n, rfl⟩
  · rcases defined_cases m' h' hmem' with heq | ⟨n, heq⟩
    · exact hne heq
    · exact hnot hdot hdot' n heq
  · rcases defined_cases m' h' hmem' with heq | ⟨n', heq⟩
    · exact hnot hdot' hdot n heq.symm
    · exact hne (Flat.markerName_label_inj heq)

/-- What the output mentions: the vectors, and then section by section. -/
theorem mentions_output (model : Model.Program) (c : Compilation) :
    mentions (preludeLines model ++
        c.layout.order.flatMap (sectionLines c.program c.layout.addresses)) =
      (vectorTargets model).map (Role.jumps, ·) ++
        c.layout.order.flatMap fun label =>
          mentions (sectionLines c.program c.layout.addresses label) := by
  rw [mentions_append, mentions_prelude, mentions, List.filterMap_flatMap]
  rfl

/-- **No label is defined twice in the output.**  Labels of sections are labels of functions, which
have one dot, and markers carry the label of their function and a second one. -/
theorem nodup_defined (s : Stages model c)
    (hall : ∀ label ∈ c.layout.order, Writable c.program c.layout.addresses label)
    (hdot : ∀ label ∈ c.layout.order, label.toList.count '.' = 1) :
    (defined (mentions (preludeLines model ++
      c.layout.order.flatMap (sectionLines c.program c.layout.addresses)))).Nodup := by
  have hnodup : c.layout.order.Nodup := by
    rw [s.order_eq]
    exact Calls.nodup_distinct _
  have hvectors : defined ((vectorTargets model).map (Role.jumps, ·)) = [] := by
    refine List.filter_eq_nil_iff.mpr fun mention hmem => ?_
    obtain ⟨name, _, rfl⟩ := List.mem_map.mp hmem
    exact Bool.false_ne_true
  rw [mentions_output, defined, List.filter_append, ← defined, hvectors, List.nil_append,
    List.filter_flatMap, List.nodup_flatMap]
  refine ⟨fun label hlabel => ?_, hnodup.imp_of_mem fun hlabel hlabel' hne => ?_⟩
  · obtain ⟨m⟩ := s.exists_member (s.order_eq ▸ hlabel)
    exact nodup_defined_section m (hall label hlabel)
  · obtain ⟨m⟩ := s.exists_member (s.order_eq ▸ hlabel)
    obtain ⟨m'⟩ := s.exists_member (s.order_eq ▸ hlabel')
    exact defined_disjoint m m' (hall _ hlabel) (hall _ hlabel') hne (hdot _ hlabel) (hdot _ hlabel')

/-- A line that reads like a name is the line that defines it. -/
theorem text_eq_iff {l : Line} {name : String} (hdot : '.' ∈ name.toList)
    (hblank : ' ' ∉ name.toList) : l.text = name ↔ l = .label name := by
  have hindented : ∀ mnemonic operands, indented mnemonic operands ≠ name := by
    rintro mnemonic operands rfl
    apply hblank
    cases operands <;> simp [indented]
  cases l with
  | label name' => simp [Line.text]
  | config | origin | constants | command =>
      refine iff_of_false ?_ nofun
      rw [Line.text]
      exact hindented _ _
  | rule | blank =>
      refine iff_of_false ?_ nofun
      rintro rfl
      revert hdot
      decide
  | comment text =>
      refine iff_of_false ?_ nofun
      rintro rfl
      apply hblank
      simp [Line.text]

/-- How often a label is defined is how often the text has it as a line. -/
theorem count_text {lines : List Line} {name : String} (hdot : '.' ∈ name.toList)
    (hblank : ' ' ∉ name.toList) : (lines.map Line.text).count name = lines.count (.label name) := by
  rw [List.count, List.countP_map, List.count]
  refine List.countP_congr fun l _ => ?_
  rw [Function.comp_apply, beq_iff_eq, beq_iff_eq]
  exact text_eq_iff hdot hblank

theorem defines_self (m : s.Member label) (h : Writable c.program c.layout.addresses label) :
    (.defines, label) ∈ mentions (sectionLines c.program c.layout.addresses label) :=
  (mem_mentions_member m h (by decide)).mpr ⟨0, _, m.entry_final, rfl⟩

/-- **The jumps of a section stay in it.** -/
theorem defines_of_jumps (m : s.Member label) (h : Writable c.program c.layout.addresses label)
    {name : String}
    (hjump : (.jumps, name) ∈ mentions (sectionLines c.program c.layout.addresses label)) :
    (.defines, name) ∈ mentions (sectionLines c.program c.layout.addresses label) := by
  obtain ⟨i, x, hx, hname⟩ := (mem_mentions_member m h (by decide)).mp hjump
  obtain ⟨target, htarget, rfl⟩ := naming?_eq_jumps.mp hname
  obtain ⟨j, hj⟩ := m.jump_marked hx htarget
  exact (mem_mentions_member m h (by decide)).mpr ⟨j, _, hj, rfl⟩

/-- **Every label that is jumped to or called is defined in some section**: jumps and branches in
their own, calls and vectors in that of a function that is reached. -/
theorem exists_section_of_used (s : Stages model c)
    (hall : ∀ label ∈ c.layout.order, Writable c.program c.layout.addresses label) {role : Role}
    {name : String} (hrole : role = .jumps ∨ role = .calls)
    (hmem : (role, name) ∈ mentions (preludeLines model ++
      c.layout.order.flatMap (sectionLines c.program c.layout.addresses))) :
    ∃ label ∈ c.layout.order,
      (.defines, name) ∈ mentions (sectionLines c.program c.layout.addresses label) := by
  have hself : ∀ label ∈ c.layout.order,
      (.defines, label) ∈ mentions (sectionLines c.program c.layout.addresses label) := by
    intro label hlabel
    obtain ⟨m⟩ := s.exists_member (s.order_eq ▸ hlabel)
    exact defines_self m (hall label hlabel)
  rw [mentions_output] at hmem
  rcases List.mem_append.mp hmem with hvector | hsection
  · obtain ⟨_, htarget, heq⟩ := List.mem_map.mp hvector
    cases heq
    obtain ⟨level, _, rfl⟩ := List.mem_map.mp htarget
    have hentered : model.Entered ((model.vectors.get level).getD model.entry) := by
      cases hget : model.vectors.get level with
      | none => exact .inl rfl
      | some handler => exact .inr ⟨level, hget⟩
    have horder := s.mem_order_iff.mpr ⟨_, hentered, .refl⟩
    exact ⟨_, horder, hself _ horder⟩
  · obtain ⟨label, hlabel, hmem⟩ := List.mem_flatMap.mp hsection
    obtain ⟨m⟩ := s.exists_member (s.order_eq ▸ hlabel)
    rcases hrole with rfl | rfl
    · exact ⟨label, hlabel, defines_of_jumps m (hall label hlabel) hmem⟩
    · obtain ⟨i, x, hx, hname⟩ := (mem_mentions_member m (hall label hlabel) (by decide)).mp hmem
      obtain ⟨result, rfl⟩ := naming?_eq_calls.mp hname
      have hcallee := m.call_reached hlabel hx
      exact ⟨name, hcallee, hself name hcallee⟩

/-- The names of a function's markers are as solid as its label. -/
theorem solid_of_defined {name : String} (hlabel : Flat.Labelled label)
    (h : name = label ∨ ∃ n, name = markerName label n) :
    '.' ∈ name.toList ∧ ' ' ∉ name.toList := by
  have hdot : '.' ∈ label.toList := List.count_pos_iff.mp (by rw [hlabel.dot]; decide)
  have hblank : ' ' ∉ label.toList := by
    intro hmem
    cases hlabel.solid ' ' hmem
  rcases h with rfl | ⟨n, rfl⟩
  · exact ⟨hdot, hblank⟩
  · rw [Flat.toList_markerName]
    refine ⟨List.mem_append_left _ hdot, fun hmem => ?_⟩
    rcases List.mem_append.mp hmem with hmem | hmem
    · exact hblank hmem
    · rcases List.mem_cons.mp hmem with heq | hdigit
      · cases heq
      · cases (Flat.not_isWhitespace_of_mem_digits hdigit).2

end Assembly

open Assembly

/-- **The output is closed under labels.**  Take a program whose functions have labels with
one dot and no white space, and whose assembly can be written.  The output is the prelude
and one section for each function that the entry or a handler calls, directly or not.
Every label that a vector, a jump or a call names is defined by exactly one line, which
is also the only line that reads so, and the jumps of a section stay in it. -/
theorem labels_are_closed {model : Model.Program} (h : (compile model).outcome = .ok ())
    (hlabels : ∀ module ∈ model.modules.values, ∀ f ∈ module.functions.values,
      Flat.Labelled f.label) :
    ∃ c, build model = .ok c ∧
      (compile model).lines = preludeLines model ++
        c.layout.order.flatMap (sectionLines c.program c.layout.addresses) ∧
      c.layout.order.Nodup ∧
      (∀ label, label ∈ c.layout.order ↔ ∃ root, model.Entered root ∧
        Relation.ReflTransGen (Flat.Directly c.program) root label) ∧
      (∀ role name, role = .jumps ∨ role = .calls →
        (role, name) ∈ mentions (compile model).lines →
        (compile model).lines.count (.label name) = 1 ∧
          ((compile model).lines.map Line.text).count name = 1) ∧
      ∀ label ∈ c.layout.order, ∀ name,
        (.jumps, name) ∈ mentions (sectionLines c.program c.layout.addresses label) →
        (.defines, name) ∈ mentions (sectionLines c.program c.layout.addresses label) := by
  obtain ⟨c, hbuild, hall, hlines⟩ := compile_writes.mp (Emission.writes_of_outcome h)
  obtain ⟨s⟩ := stages_of_build hbuild
  have hlabelled : ∀ label ∈ c.layout.order, Flat.Labelled label := by
    intro label hlabel
    obtain ⟨m⟩ := s.exists_member (s.order_eq ▸ hlabel)
    obtain ⟨l⟩ := m.exists_lineage
    obtain ⟨module, hmodule, horigin⟩ := l.mem
    exact l.label_eq ▸ hlabels module hmodule l.origin horigin
  refine ⟨c, hbuild, hlines, ?_, fun label => s.mem_order_iff, ?_, ?_⟩
  · rw [s.order_eq]
    exact Calls.nodup_distinct _
  · intro role name hrole hmem
    rw [hlines] at hmem ⊢
    obtain ⟨label, hlabel, hdefines⟩ := exists_section_of_used s hall hrole hmem
    obtain ⟨m⟩ := s.exists_member (s.order_eq ▸ hlabel)
    have hdefined : (.defines, name) ∈ defined (mentions (preludeLines model ++
        c.layout.order.flatMap (sectionLines c.program c.layout.addresses))) := by
      refine List.mem_filter.mpr ⟨?_, rfl⟩
      rw [mentions_output]
      exact List.mem_append_right _ (List.mem_flatMap.mpr ⟨label, hlabel, hdefines⟩)
    have hnodup := nodup_defined s hall fun label hlabel => (hlabelled label hlabel).dot
    have hone : (preludeLines model ++ c.layout.order.flatMap
        (sectionLines c.program c.layout.addresses)).count (.label name) = 1 := by
      rw [count_label, ← List.count_filter (p := fun m => m.1 = .defines) rfl]
      exact List.count_eq_one_of_mem hnodup hdefined
    obtain ⟨hdot, hblank⟩ := solid_of_defined (hlabelled label hlabel)
      (defined_cases m (hall label hlabel) (List.mem_filter.mpr ⟨hdefines, rfl⟩))
    exact ⟨hone, (count_text hdot hblank).trans hone⟩
  · intro label hlabel name hjump
    obtain ⟨m⟩ := s.exists_member (s.order_eq ▸ hlabel)
    exact defines_of_jumps m (hall label hlabel) hjump

/-- A program whose entry counts until a handler raises a flag. -/
def watchedCount : Model.Program :=
  let entry : Model.Function :=
    ({ label := "demo.main" } : Model.Function).addSymbol "n" .word |>.withBody
      [.forever [.ifElse (.var "demo.done") .breakLoop none,
        .assign (.var "n") none (.call "next" [.var "n"])]]
  let next : Model.Function :=
    ({ label := "demo.next", returns := some .int } : Model.Function).addParameter "k" .int
      |>.withBody [.ret (some (.binary .add (.var "k") (.int 1)))]
  let tick : Model.Function :=
    ({ label := "demo.tick", isr := true } : Model.Function).withBody
      [.assign (.var "demo.done") none (.bool true)]
  let demo : Model.Module := (((({} : Model.Module).addSymbol "done" .flag).addFunction entry
    ).addFunction next).addFunction tick
  { name := "demo", modules := Table.empty.insert "demo" demo
    vectors := ⟨(List.replicate 15 none).set 2 (some "demo.tick"), rfl⟩ }

/-- In the assembly of `watchedCount` the loop, the callee and the handler have one label
each. -/
theorem labels_are_closed_watchedCount :
    (compile watchedCount).outcome = .ok () ∧
      (compile watchedCount).lines.count (.label "demo.tick") = 1 ∧
      (compile watchedCount).lines.count (.label "demo.next") = 1 ∧
      (compile watchedCount).lines.count (.label "demo.main.1") = 1 := by
  have hran : (compile watchedCount).outcome.toOption = some () := by decide +kernel
  have hok : (compile watchedCount).outcome = .ok () := toOption_eq_some.mp hran
  have hlabels : ∀ module ∈ watchedCount.modules.values, ∀ f ∈ module.functions.values,
      Flat.Labelled f.label := by decide +kernel
  have hmentions : ∀ mention ∈ [(Role.jumps, "demo.tick"), (.calls, "demo.next"),
      (.jumps, "demo.main.1")], mention ∈ mentions (compile watchedCount).lines := by
    decide +kernel
  obtain ⟨c, _, _, _, _, hused, _⟩ := labels_are_closed hok hlabels
  refine ⟨hok, (hused .jumps _ (.inl rfl) (hmentions _ ?_)).1,
    (hused .calls _ (.inr rfl) (hmentions _ ?_)).1, (hused .jumps _ (.inl rfl) (hmentions _ ?_)).1⟩
  · exact List.mem_cons_self
  · exact List.mem_cons_of_mem _ List.mem_cons_self
  · exact List.mem_cons_of_mem _ (List.mem_cons_of_mem _ List.mem_cons_self)

end Stackless
