import Stackless.Proofs.Comparisons
import Stackless.Proofs.Lowering

/-!
# Control stays in its section

Behind the last instruction of a function comes the heading of the next one, so a function must
not end in anything but a return.

* `ReturnsLast` — the last instruction that is left is a return.  Flattening makes it so
  (`returnsLast_of_flatBody`).  Simplification may take out that return, but only behind another
  return, with nothing left in between (`ReturnsLast.strip`);
* `Closes` — a section closes with the command of that return and a blank line;
* `Goes` — where the control of the processor goes from a line: to the next one, to a label, back
  to where it was called or interrupted, or to a vector;
* `Goes.kept` — one step leads from lines that are not the last of their section to such a line,
  and so does every run (`Safe.run`);
* `control_stays_in_section` — all of it together.
-/

namespace Stackless

namespace Flat

/-- The last instruction that is left is a return: whatever stood behind it was taken out. -/
def ReturnsLast (code : List Instruction) : Prop :=
  ∃ (j : Nat) (value : Option Nat), code[j]? = some (.ret value) ∧
    ∀ k x, j < k → code[k]? = some x → x = .removed

section Returns

variable {body out : List Op}

/-- A body whose last op is a return. -/
theorem returnsLast_of_endsInReturn (h : endsInReturn body = true) : ReturnsLast (codeOf body) := by
  rcases List.eq_nil_or_concat body with rfl | ⟨front, op, rfl⟩
  · cases h
  · rw [List.concat_eq_append] at h ⊢
    rw [endsInReturn_append_singleton] at h
    obtain ⟨value, hret⟩ : ∃ value, op.instruction = .ret value := by
      cases hinstr : op.instruction with
      | ret value => exact ⟨value, rfl⟩
      | _ =>
          rw [hinstr] at h
          cases h
    have hlength : (codeOf front).length = front.length := List.length_map _
    refine ⟨front.length, value, ?_, fun k x hk hx => ?_⟩
    · rw [codeOf_append, List.getElem?_append_right (by omega), hlength, Nat.sub_self]
      exact congrArg some hret
    · have hlt := (List.getElem?_eq_some_iff.mp hx).1
      rw [codeOf_append, List.length_append, hlength] at hlt
      exact absurd hlt (by simp; omega)

/-- **Flat code ends in a return**, its own or the one that is put behind code which does not end in
one. -/
theorem returnsLast_of_flatBody {ctx : Context} (h : flatBody ctx = .ok body) :
    ReturnsLast (codeOf body) := by
  obtain ⟨segment, _, h⟩ := bind_eq_ok.mp h
  rw [pure_eq_ok] at h
  rw [← h]
  split
  · rename_i hends
    exact returnsLast_of_endsInReturn hends
  · refine returnsLast_of_endsInReturn ?_
    exact endsInReturn_append_singleton _ _

/-- A step that takes out no return keeps the last one. -/
theorem ReturnsLast.trims {may : Instruction → Bool} (h : ReturnsLast (codeOf body))
    (htrims : Trims may body out) (hmay : ∀ value, may (.ret value) = false) :
    ReturnsLast (codeOf out) := by
  obtain ⟨j, value, hret, hbehind⟩ := h
  obtain ⟨_, hstays⟩ := htrims.stays hret (hmay value)
  refine ⟨j, value, hstays, fun k y hk hy => ?_⟩
  obtain ⟨x, hx, hy⟩ := htrims.code hy
  obtain rfl := hbehind k x hk hx
  rcases hy with ⟨_, rfl⟩ | ⟨_, rfl⟩
  · rfl
  · rfl

/-- **A return that is taken out as dead code stands behind one that stays**, with nothing left in
between. -/
theorem ReturnsLast.strip (h : ReturnsLast (codeOf body)) {stops : Instruction → Bool}
    (hstops : stops = Instruction.isJump ∨ stops = Instruction.isReturn) :
    ReturnsLast (codeOf (stripAfter stops false body)) := by
  obtain ⟨j, value, hret, hbehind⟩ := h
  obtain ⟨op, hop, hinstr⟩ := exists_of_codeOf_getElem? hret
  have hout := stripAfter_getElem? stops body false j
  rw [hop, Option.map_some, hinstr] at hout
  have hgone : ∀ k y, j < k → (codeOf (stripAfter stops false body))[k]? = some y →
      y = .removed := by
    intro k y hk hy
    obtain ⟨x, hx, hy⟩ := (stripAfter_trims stops false body).code hy
    obtain rfl := hbehind k x hk hx
    rcases hy with ⟨_, rfl⟩ | ⟨_, rfl⟩
    · rfl
    · rfl
  cases hsurvives : survives stops (deadBefore stops false body j) (.ret value) with
  | true =>
      rw [if_pos hsurvives] at hout
      refine ⟨j, value, ?_, hgone⟩
      rw [codeOf_getElem? hout, hinstr]
  | false =>
      rw [if_neg (by rw [hsurvives]; exact Bool.false_ne_true)] at hout
      obtain ⟨rfl, hdead⟩ : stops = Instruction.isReturn ∧
          deadBefore stops false body j = true := by
        rcases hstops with rfl | rfl
        · simp [survives, Instruction.isReturn, Instruction.isJump] at hsurvives
        · exact ⟨rfl, by simpa [survives, Instruction.isReturn, Instruction.isRemoved,
            Instruction.isMarker] using hsurvives⟩
      have hlt := (List.getElem?_eq_some_iff.mp hop).1
      obtain ⟨i, x, hij, hx, hstop, hbetween⟩ := exists_stop_of_dead (Nat.le_of_lt hlt) hdead
      obtain ⟨value', rfl⟩ : ∃ value', x = .ret value' := by
        cases x with
        | ret value' => exact ⟨value', rfl⟩
        | _ => cases hstop
      refine ⟨i, value', hx, fun k y hik hy => ?_⟩
      rcases Nat.lt_trichotomy k j with hlt | rfl | hgt
      · rw [hbetween k hik hlt] at hy
        cases hy
        rfl
      · rw [codeOf_getElem? hout] at hy
        cases hy
        rfl
      · exact hgone k y hgt hy

/-- **A round keeps a return at the end.** -/
theorem ReturnsLast.round {label : String} (h : ReturnsLast (codeOf body))
    (hround : Flat.round label body = .ok out) : ReturnsLast (codeOf out) := by
  obtain ⟨resolved, hresolve, rfl⟩ := round_eq_ok hround
  have h1 := h.trims (resolve_trims hresolve) fun _ => rfl
  have h2 := h1.strip (.inr rfl)
  have h3 := h2.trims (threadAll_trims _) fun _ => rfl
  have h4 := h3.trims (removeUnusedMarkers_trims _) fun _ => rfl
  have h5 := h4.strip (.inl rfl)
  exact h5.trims (removeNoopJumps_trims _) fun _ => rfl

/-- **Simplification keeps a return at the end.** -/
theorem ReturnsLast.settle {label : String} {fuel : Nat} (h : ReturnsLast (codeOf body))
    (hsettle : Flat.settle label fuel body = .ok out) : ReturnsLast (codeOf out) :=
  settle_induction (P := fun body => ReturnsLast (codeOf body))
    (fun _ _ hbody hround => hbody.round hround) h hsettle

end Returns

/-- Every function of a flat program ends in a return. -/
theorem returnsLast_of_ofModel {model : Model.Program} {flat : Program}
    (h : Program.ofModel model = .ok flat) {label : String} {f : Function}
    (hf : flat.find? label = some f) : ReturnsLast (codeOf f.body) := by
  obtain ⟨_, _, source, _, _, hof⟩ := exists_of_find?_ofModel h hf
  obtain ⟨body, hbody, hf⟩ := bind_eq_ok.mp hof
  cases hf
  show ReturnsLast (codeOf (withLastUses body))
  rw [codeOf_withLastUses]
  exact returnsLast_of_flatBody hbody

end Flat

open Flat (Op Instruction codeOf ReturnsLast)

theorem Lineage.returnsLast {model : Model.Program} {label : String} {simple : Flat.Function}
    (l : Lineage model label simple) : ReturnsLast (codeOf simple.body) := by
  rw [l.body_eq, Flat.codeOf_withLastUses]
  refine ReturnsLast.settle ?_ l.settle_eq
  rw [Flat.codeOf_withLastUses]
  exact Flat.returnsLast_of_flatBody l.flat_eq

namespace Stages.Member

variable {model : Model.Program} {c : Compilation} {s : Stages model c} {label : String}
  (m : s.Member label)
include m

theorem returnsLast : ReturnsLast (codeOf m.final.body) := by
  obtain ⟨l⟩ := m.exists_lineage
  obtain ⟨j, value, hret, hbehind⟩ := l.returnsLast
  refine ⟨j, value, m.final_of_simple hret rfl nofun, fun k x hk hx => ?_⟩
  by_contra hlive
  exact hlive (hbehind k x hk (m.simple_of_codeOf_final hx hlive))

theorem isr_final : m.final.isr = m.simple.isr := by
  obtain ⟨_, _, _, _, hfinal⟩ := Storage.anchor_eq_ok m.anchor_eq
  obtain ⟨_, _, hraised⟩ := m.raised_same
  have hframed := congrArg Flat.Function.isr m.framing.frame_eq
  rw [hfinal, hraised]
  exact hframed

/-- A function that is reached, and is not the entry, is a handler just if it is installed. -/
theorem isr_iff (hlabel : label ∈ c.layout.order) (hentry : label ≠ model.entry) :
    m.final.isr = true ↔ ∃ level, model.vectors.get level = some label := by
  have hisr : m.simple.isr = Calls.isHandler s.simple label := by
    rw [Calls.isHandler, m.simple_eq]
  have hroots : (∃ level, (level, label) ∈ model.vectors.handlers) ↔
      ∃ h ∈ c.forest.interrupts, h.2.name = label := s.rooted.mem_handlers_iff
  simp only [Model.Vectors.mem_handlers_iff] at hroots
  rw [m.isr_final, hisr, hroots]
  constructor
  · intro hhandler
    rw [s.order_eq, s.rooted.mem_reachable_iff] at hlabel
    refine hlabel.resolve_left ?_
    rintro ⟨t, ht, rfl⟩
    rcases s.rooted.main_unfolds.eq_or_not_handler ht with rfl | hplain
    · exact hentry s.rooted.main_name
    · rw [hhandler] at hplain
      cases hplain
  · rintro ⟨h, hh, rfl⟩
    exact s.rooted.handler_isr h hh

end Stages.Member

open Assembly

namespace Assembly

/-- Lines that close with a return and a blank line. The return is that of an interrupt or of a
call, as the function is a handler or not. -/
def Closes (lines : List Line) (fromInterrupt : Bool) : Prop :=
  ∃ front, lines = front ++ [.command (.ret fromInterrupt), .blank]

namespace Writing

variable {w : Writing} {index : Nat}

theorem written_of_removed {ops : List Op} (h : ∀ op ∈ ops, op.instruction = .removed) :
    w.written index ops = [] := by
  refine List.flatMap_eq_nil_iff.mpr fun p hp => ?_
  rw [opLines, h p.1 (List.fst_mem_of_mem_zipIdx hp)]
  rfl

/-- The lines of a return close with its command. -/
theorem closes_ret {op : Op} {value : Option Nat} (hinstr : op.instruction = .ret value)
    (hok : (w.opLines index op).outcome = .ok ()) :
    Closes (w.opLines index op).lines w.function.isr := by
  have hwrites := Emission.writes_of_outcome hok
  generalize (w.opLines index op).lines = lines at hwrites
  rw [opLines_writes, hinstr] at hwrites
  cases value with
  | none => exact ⟨[], hwrites⟩
  | some value =>
      obtain ⟨_, _, first, _, rfl⟩ := hwrites
      exact ⟨first, rfl⟩

/-- **A body whose last instruction is a return closes with its command.** -/
theorem closes_written {ops : List Op} (h : ReturnsLast (codeOf ops))
    (hok : ∀ (n : Nat) op, ops[n]? = some op → (w.opLines (index + n) op).outcome = .ok ()) :
    Closes (w.written index ops) w.function.isr := by
  obtain ⟨j, value, hret, hbehind⟩ := h
  obtain ⟨op, hop, hinstr⟩ := Flat.exists_of_codeOf_getElem? hret
  obtain ⟨hlt, hget⟩ := List.getElem?_eq_some_iff.mp hop
  have hsplit : ops = ops.take j ++ op :: ops.drop (j + 1) := by
    rw [← hget, List.getElem_cons_drop hlt, List.take_append_drop]
  have hgone : ∀ op' ∈ ops.drop (j + 1), op'.instruction = .removed := by
    intro op' hmem
    obtain ⟨n, hn⟩ := List.mem_iff_getElem?.mp hmem
    rw [List.getElem?_drop] at hn
    exact hbehind (j + 1 + n) _ (by omega) (Flat.codeOf_getElem? hn)
  have hlength : (ops.take j).length = j := List.length_take_of_le (Nat.le_of_lt hlt)
  obtain ⟨front, hfront⟩ := closes_ret hinstr (hok j op hop)
  have hone : w.written (index + j) [op] = (w.opLines (index + j) op).lines := List.append_nil _
  refine ⟨w.written index (ops.take j) ++ front, ?_⟩
  calc w.written index ops
      = w.written index (ops.take j ++ ([op] ++ ops.drop (j + 1))) := congrArg _ hsplit
    _ = w.written index (ops.take j) ++ (w.opLines (index + j) op).lines := by
        rw [written_append, hlength, written_append, written_of_removed hgone, List.append_nil,
          hone]
    _ = (w.written index (ops.take j) ++ front) ++ [.command (.ret w.function.isr), .blank] := by
        rw [hfront, List.append_assoc]

end Writing

/-- **The section of a function closes with its return**, the command that fits whether the function
is a handler, and a blank line. -/
theorem closes_section {model : Model.Program} {c : Compilation} {s : Stages model c}
    {label : String} (m : s.Member label) (h : Writable c.program c.layout.addresses label) :
    Closes (sectionLines c.program c.layout.addresses label) m.final.isr := by
  obtain ⟨function, hfind, hok⟩ := h
  rw [m.final_eq] at hfind
  cases hfind
  have hbody : Closes (m.writing.written 0 m.final.body) m.final.isr := by
    refine Writing.closes_written m.returnsLast fun n op hop => ?_
    rw [Nat.zero_add]
    exact hok n op hop
  obtain ⟨front, hfront⟩ := hbody
  refine ⟨headingLines label ++ front, ?_⟩
  rw [sectionLines, m.final_eq, List.append_assoc]
  exact congrArg (headingLines label ++ ·) hfront

/-- Whether control goes on to the next line. -/
def Line.falls : Line → Bool
  | .command (.jump _) | .command (.call _) | .command (.ret _) => false
  | _ => true

/-- The label that a command may jump to. -/
def Command.jump? : Command → Option String
  | .jump label | .jumpIf _ label => some label
  | _ => none

/-- Where control is: the line that comes next, and the lines to go back to, the innermost
first. -/
structure Control where
  line : Nat
  returns : List Nat

/-- The line of a vector. -/
def IsVector (model : Model.Program) (i : Nat) : Prop :=
  ∃ name, (preludeLines model)[i]? = some (.command (.jump name))

/-- **Where control goes** from a line of an output.  A jump, a branch or a call goes to any line
that defines its label.  A return goes back to the line behind the call, or to the line that was
interrupted; it does not matter which command the processor comes back with.  A command that stops
the processor may let it go on. -/
inductive Goes (model : Model.Program) (lines : List Line) : Control → Control → Prop
  | on {i : Nat} {returns : List Nat} {l : Line} : lines[i]? = some l → l.falls = true →
      Goes model lines ⟨i, returns⟩ ⟨i + 1, returns⟩
  | jump {i k : Nat} {returns : List Nat} {command : Command} {name : String} :
      lines[i]? = some (.command command) → command.jump? = some name →
      lines[k]? = some (.label name) → Goes model lines ⟨i, returns⟩ ⟨k, returns⟩
  | call {i k : Nat} {returns : List Nat} {name : String} :
      lines[i]? = some (.command (.call name)) → lines[k]? = some (.label name) →
      Goes model lines ⟨i, returns⟩ ⟨k, (i + 1) :: returns⟩
  | back {i k : Nat} {returns : List Nat} {fromInterrupt : Bool} :
      lines[i]? = some (.command (.ret fromInterrupt)) →
      Goes model lines ⟨i, k :: returns⟩ ⟨k, returns⟩
  | interrupt {i k : Nat} {returns : List Nat} : IsVector model k →
      Goes model lines ⟨i, returns⟩ ⟨k, i :: returns⟩
  | restart {i k : Nat} {returns : List Nat} : IsVector model k →
      Goes model lines ⟨i, returns⟩ ⟨k, []⟩

end Assembly

/-- The section of a function takes the lines from `start` up to `stop` of the output. -/
def Compilation.Takes (model : Model.Program) (c : Compilation) (label : String)
    (start stop : Nat) : Prop :=
  ∃ before after, c.layout.order = before ++ label :: after ∧
    start = (preludeLines model ++
      before.flatMap (sectionLines c.program c.layout.addresses)).length ∧
    stop = start + (sectionLines c.program c.layout.addresses label).length

/-- A line of a vector, or a line of a section behind which the section goes on. -/
def Compilation.Safe (model : Model.Program) (c : Compilation) (i : Nat) : Prop :=
  IsVector model i ∨ ∃ label start stop, c.Takes model label start stop ∧ start ≤ i ∧ i + 1 < stop

/-- An index behind the front of a list stands in one of the parts behind it. -/
theorem exists_part {α β : Type} {f : β → List α} :
    ∀ {parts : List β} {front : List α} {i : Nat}, front.length ≤ i →
      i < (front ++ parts.flatMap f).length →
      ∃ before part after, parts = before ++ part :: after ∧
        (front ++ before.flatMap f).length ≤ i ∧
        i < (front ++ before.flatMap f).length + (f part).length
  | [], front, i, hle, hlt => by
      rw [List.flatMap_nil, List.append_nil] at hlt
      omega
  | part :: parts, front, i, hle, hlt => by
      by_cases hpart : i < front.length + (f part).length
      · exact ⟨[], part, parts, rfl, by simpa using hle, by simpa using hpart⟩
      · rw [List.flatMap_cons, ← List.append_assoc] at hlt
        have hfront : (front ++ f part).length ≤ i := by
          rw [List.length_append]
          omega
        obtain ⟨before, part', after, hsplit, hstart, hstop⟩ := exists_part hfront hlt
        rw [List.append_assoc, ← List.flatMap_cons] at hstart hstop
        exact ⟨part :: before, part', after, by rw [hsplit, List.cons_append], hstart, hstop⟩

/-- An output whose sections all close with a return. -/
structure Compilation.Closed (model : Model.Program) (c : Compilation) (lines : List Line) :
    Prop where
  lines_eq : lines = preludeLines model ++
    c.layout.order.flatMap (sectionLines c.program c.layout.addresses)
  closes : ∀ label ∈ c.layout.order, ∃ fromInterrupt,
    Closes (sectionLines c.program c.layout.addresses label) fromInterrupt

namespace Compilation.Closed

variable {model : Model.Program} {c : Compilation} {lines : List Line} (h : c.Closed model lines)
include h

/-- The last two lines of a section. -/
theorem last {label : String} {start stop : Nat} (htakes : c.Takes model label start stop) :
    start + 2 ≤ stop ∧ (∃ fromInterrupt, lines[stop - 2]? = some (.command (.ret fromInterrupt))) ∧
      lines[stop - 1]? = some .blank := by
  obtain ⟨before, after, horder, hstart, hstop⟩ := htakes
  obtain ⟨fromInterrupt, front, hfront⟩ := h.closes label (by rw [horder]; simp)
  have hlines : lines = (preludeLines model ++
      before.flatMap (sectionLines c.program c.layout.addresses)) ++ (front ++
      [.command (.ret fromInterrupt), .blank] ++
      after.flatMap (sectionLines c.program c.layout.addresses)) := by
    rw [h.lines_eq, horder, List.flatMap_append, List.flatMap_cons, hfront]
    simp only [List.append_assoc]
  rw [hfront, List.length_append] at hstop
  have hlength : ([.command (.ret fromInterrupt), .blank] : List Line).length = 2 := rfl
  rw [hlength] at hstop
  refine ⟨by omega, ⟨fromInterrupt, ?_⟩, ?_⟩
  · rw [hlines, List.getElem?_append_right (by omega), ← hstart, List.append_assoc,
      List.getElem?_append_right (by omega), show stop - 2 - start - front.length = 0 by omega]
    rfl
  · rw [hlines, List.getElem?_append_right (by omega), ← hstart, List.append_assoc,
      List.getElem?_append_right (by omega), show stop - 1 - start - front.length = 1 by omega]
    rfl

theorem vector {i : Nat} (hi : IsVector model i) :
    ∃ name, lines[i]? = some (.command (.jump name)) := by
  obtain ⟨name, hname⟩ := hi
  refine ⟨name, ?_⟩
  rw [h.lines_eq, List.getElem?_append_left (List.getElem?_eq_some_iff.mp hname).1, hname]

/-- **Labels are defined in sections**, and not in their last line. -/
theorem safe_of_label {i : Nat} {name : String} (hi : lines[i]? = some (.label name)) :
    c.Safe model i := by
  have hlt := (List.getElem?_eq_some_iff.mp hi).1
  have hle : (preludeLines model).length ≤ i := by
    by_contra hprelude
    rw [h.lines_eq, List.getElem?_append_left (by omega)] at hi
    have hdefines : (Role.defines, name) ∈ mentions (preludeLines model) :=
      List.mem_filterMap.mpr ⟨_, List.mem_of_getElem? hi, rfl⟩
    rw [mentions_prelude] at hdefines
    obtain ⟨_, _, heq⟩ := List.mem_map.mp hdefines
    cases heq
  obtain ⟨before, label, after, horder, hstart, hstop⟩ :=
    exists_part hle (h.lines_eq ▸ hlt)
  have htakes : c.Takes model label _ _ := ⟨before, after, horder, rfl, rfl⟩
  refine .inr ⟨label, _, _, htakes, hstart, ?_⟩
  by_contra hlast
  have hblank := (h.last htakes).2.2
  rw [show _ - 1 = i by omega, hi] at hblank
  cases hblank

/-- Behind a line from which control goes on, or calls, its section goes on. -/
theorem safe_next {i : Nat} {l : Line} (hsafe : c.Safe model i) (hi : lines[i]? = some l)
    (hjump : ∀ name, l ≠ .command (.jump name))
    (hret : ∀ fromInterrupt, l ≠ .command (.ret fromInterrupt)) :
    ∃ label start stop, c.Takes model label start stop ∧ start ≤ i ∧ i + 2 < stop := by
  rcases hsafe with hvector | ⟨label, start, stop, htakes, hstart, hstop⟩
  · obtain ⟨name, hname⟩ := h.vector hvector
    rw [hi] at hname
    exact absurd (Option.some.inj hname) (hjump name)
  · refine ⟨label, start, stop, htakes, hstart, ?_⟩
    by_contra hlast
    obtain ⟨fromInterrupt, hcommand⟩ := (h.last htakes).2.1
    rw [show stop - 2 = i by omega, hi] at hcommand
    exact hret fromInterrupt (Option.some.inj hcommand)

/-- **One step** leads from safe lines to safe lines. Falling from one line to the next stays in a
section, since its last command is a return; jumps go to labels of the section; calls and interrupts
go to the start of one, and put a safe line on the stack. -/
theorem kept {t u : Control} (hstep : Goes model lines t u) (hline : c.Safe model t.line)
    (hreturns : ∀ r ∈ t.returns, c.Safe model r) :
    c.Safe model u.line ∧ ∀ r ∈ u.returns, c.Safe model r := by
  cases hstep with
  | on hl hfalls =>
      obtain ⟨label, start, stop, htakes, hstart, hstop⟩ := h.safe_next hline hl
        (by rintro _ rfl; cases hfalls) (by rintro _ rfl; cases hfalls)
      exact ⟨.inr ⟨label, start, stop, htakes, Nat.le_succ_of_le hstart, hstop⟩, hreturns⟩
  | jump _ _ hlabel => exact ⟨h.safe_of_label hlabel, hreturns⟩
  | call hl hlabel =>
      obtain ⟨label, start, stop, htakes, hstart, hstop⟩ := h.safe_next hline hl nofun nofun
      refine ⟨h.safe_of_label hlabel, List.forall_mem_cons.mpr ⟨?_, hreturns⟩⟩
      exact .inr ⟨label, start, stop, htakes, Nat.le_succ_of_le hstart, hstop⟩
  | back _ => exact List.forall_mem_cons.mp hreturns
  | interrupt hvector => exact ⟨.inl hvector, List.forall_mem_cons.mpr ⟨hline, hreturns⟩⟩
  | restart hvector => exact ⟨.inl hvector, by simp⟩

/-- **A run** from a vector stays on safe lines, by induction on its steps: the lines to which it
will return are part of what is kept. -/
theorem run {v : Nat} (hv : IsVector model v) {t : Control}
    (hrun : Relation.ReflTransGen (Goes model lines) ⟨v, []⟩ t) :
    c.Safe model t.line ∧ ∀ r ∈ t.returns, c.Safe model r := by
  induction hrun with
  | refl => exact ⟨.inl hv, by simp⟩
  | tail _ hstep ih => exact h.kept hstep ih.1 ih.2

end Compilation.Closed

/-- **Control never runs off the end of a function.**  In an accepted build the last instruction
that is left of a function is a return, both after flattening and after simplification.  If the
assembly can be written, then every section closes with `RTI` if the function is a handler, and
with `RTS` if not; a function that is reached and is not the entry is a handler just if it is
installed.  A run of the output that starts at a vector is at every moment at a vector or in a
section, and wherever it goes on from a line to the next one, that line is in the same section. -/
theorem control_stays_in_section {model : Model.Program} {c : Compilation}
    (h : build model = .ok c) :
    (∃ s : Stages model c,
      (∀ label f, s.flat.find? label = some f → ReturnsLast (codeOf f.body)) ∧
      ∀ label f, s.simple.find? label = some f → ReturnsLast (codeOf f.body)) ∧
    ((compile model).outcome = .ok () →
      (compile model).lines = preludeLines model ++
        c.layout.order.flatMap (sectionLines c.program c.layout.addresses) ∧
      (∀ label ∈ c.layout.order, ∃ isr,
        Closes (sectionLines c.program c.layout.addresses label) isr ∧
        (∃ module ∈ model.modules.values, ∃ f ∈ module.functions.values,
          f.label = label ∧ f.isr = isr) ∧
        (label ≠ model.entry → (isr = true ↔ ∃ level, model.vectors.get level = some label))) ∧
      ∀ v t, IsVector model v →
        Relation.ReflTransGen (Goes model (compile model).lines) ⟨v, []⟩ t →
        (IsVector model t.line ∨ ∃ label start stop, c.Takes model label start stop ∧
          start ≤ t.line ∧ t.line < stop) ∧
        ∀ l, (compile model).lines[t.line]? = some l → l.falls = true →
          ∃ label start stop, c.Takes model label start stop ∧
            start ≤ t.line ∧ t.line + 1 < stop) := by
  obtain ⟨s⟩ := stages_of_build h
  refine ⟨⟨s, fun label f hf => Flat.returnsLast_of_ofModel s.flat_eq hf, fun label f hf => ?_⟩,
    fun hok => ?_⟩
  · obtain ⟨l⟩ := exists_lineage s.flat_eq s.simple_eq hf
    exact l.returnsLast
  · obtain ⟨c', hbuild, hall, hlines⟩ := compile_writes.mp (Emission.writes_of_outcome hok)
    rw [h] at hbuild
    cases hbuild
    have hcloses : ∀ label ∈ c.layout.order, ∃ m : s.Member label,
        Closes (sectionLines c.program c.layout.addresses label) m.final.isr := by
      intro label hlabel
      obtain ⟨m⟩ := s.exists_member (s.order_eq ▸ hlabel)
      exact ⟨m, closes_section m (hall label hlabel)⟩
    have hclosed : c.Closed model (compile model).lines :=
      ⟨hlines, fun label hlabel => (hcloses label hlabel).elim fun m hm => ⟨m.final.isr, hm⟩⟩
    refine ⟨hlines, fun label hlabel => ?_, fun v t hv hrun => ?_⟩
    · obtain ⟨m, hm⟩ := hcloses label hlabel
      obtain ⟨l⟩ := m.exists_lineage
      obtain ⟨module, hmodule, horigin⟩ := l.mem
      refine ⟨m.final.isr, hm, ⟨module, hmodule, l.origin, horigin, l.label_eq, ?_⟩,
        m.isr_iff hlabel⟩
      exact (m.isr_final.trans (congrArg Flat.Function.isr l.simple_eq)).symm
    · obtain ⟨hsafe, _⟩ := hclosed.run hv hrun
      refine ⟨?_, fun l hl hfalls => ?_⟩
      · rcases hsafe with hvector | ⟨label, start, stop, htakes, hstart, hstop⟩
        · exact .inl hvector
        · exact .inr ⟨label, start, stop, htakes, hstart, Nat.lt_of_succ_lt hstop⟩
      · obtain ⟨label, start, stop, htakes, hstart, hstop⟩ := hclosed.safe_next hsafe hl
          (by rintro _ rfl; cases hfalls) (by rintro _ rfl; cases hfalls)
        exact ⟨label, start, stop, htakes, hstart, Nat.lt_of_succ_lt hstop⟩

/-- The section of the handler of `watchedCount` closes with `RTI`, that of the callee with `RTS`,
and behind the label that the handler's vector jumps to the handler goes on. -/
theorem control_stays_in_section_watchedCount :
    ∃ c, build watchedCount = .ok c ∧ (compile watchedCount).outcome = .ok () ∧
      Closes (sectionLines c.program c.layout.addresses "demo.tick") true ∧
      Closes (sectionLines c.program c.layout.addresses "demo.next") false ∧
      ∃ label start stop, c.Takes watchedCount label start stop ∧ start ≤ 50 ∧ 50 + 1 < stop := by
  have horder : (build watchedCount).toOption.map (·.layout.order) =
      some ["demo.main", "demo.next", "demo.tick"] := by decide +kernel
  -- the output: it is whole, the handler's vector is line 7, and its section starts at line 50
  have hshape : ((compile watchedCount).outcome.toOption, (compile watchedCount).lines[7]?,
      (compile watchedCount).lines[50]?) =
      (some (), some (.command (.jump "demo.tick")), some (.label "demo.tick")) := by
    decide +kernel
  simp only [Prod.mk.injEq] at hshape
  obtain ⟨hran, hline, hentry⟩ := hshape
  obtain ⟨c, hbuild, horder⟩ := Option.map_eq_some_iff.mp horder
  have hbuild := toOption_eq_some.mp hbuild
  have hok := toOption_eq_some.mp hran
  obtain ⟨_, hwritten⟩ := control_stays_in_section hbuild
  obtain ⟨_, hcloses, hruns⟩ := hwritten hok
  have hvector : IsVector watchedCount 7 := ⟨"demo.tick", by decide +kernel⟩
  have hjump : Goes watchedCount (compile watchedCount).lines ⟨7, []⟩ ⟨50, []⟩ :=
    .jump hline rfl hentry
  obtain ⟨isr, htick, _, hinstalled⟩ := hcloses "demo.tick" (by rw [horder]; decide)
  obtain ⟨isr', hnext, _, hinstalled'⟩ := hcloses "demo.next" (by rw [horder]; decide)
  obtain rfl : isr = true := (hinstalled (by decide)).mpr ⟨3, rfl⟩
  obtain rfl : isr' = false := by
    refine Bool.eq_false_iff.mpr fun hisr => ?_
    obtain ⟨level, hlevel⟩ := (hinstalled' (by decide)).mp hisr
    have hmem := Model.Vectors.mem_handlers_iff.mpr hlevel
    rw [show watchedCount.vectors.handlers = [(3, "demo.tick")] from rfl] at hmem
    have hname : "demo.next" ≠ "demo.tick" := by decide
    exact hname (congrArg Prod.snd (List.mem_singleton.mp hmem))
  exact ⟨c, hbuild, hok, htick, hnext,
    (hruns 7 ⟨50, []⟩ hvector (.single hjump)).2 (.label "demo.tick") hentry rfl⟩

end Stackless
