import Stackless.Proofs.Arguments
import Stackless.Proofs.GlobalsApart
import Stackless.Proofs.Machine

/-!
# Parameters are moved in parallel

Before a call the value of each argument is moved to the slot of its parameter, one after the
other.  A row of moves is **parallel** (`Parallel`) if the cells that are written are different
and none of them is read; then the order does not matter, and in the end each cell holds what the
moves found at first (`Parallel.run`).

The moves of a call are parallel.  What they write are slots that the callee has pinned for
different names (`Member.localCell?_inj`), in a window above the caller's; what they read is in the
window of the caller or a global (`Member.Sees`), and no global is in a window.
-/

namespace Stackless

open Flat (Op Instruction Offset File Width Var Gives codeOf)
open Assembly

namespace Assembly

/-- A command that puts a value into a cell. These three are all that is written for parameters. -/
inductive Move where
  /-- A word, from a register or a constant. -/
  | word (target : Nat) (source : Source)
  /-- A bit from another. -/
  | bit (target source : Nat)
  /-- A truth value. -/
  | truth (target : Nat) (value : Bool)
  deriving DecidableEq

namespace Move

/-- The command. -/
def command : Move → Command
  | .word target source => .move target source
  | .bit target source => .moveBit target source
  | .truth target value => .setBit target value

/-- The command on its line. -/
def line (move : Move) : Line :=
  .command move.command

/-- The cell that is written. -/
def target : Move → File × Nat
  | .word target _ => (.register, target)
  | .bit target _ | .truth target _ => (.bit, target)

/-- The cell that is read, if it is not a constant that is moved. -/
def source? : Move → Option (File × Nat)
  | .word _ (.cell source) => some (.register, source)
  | .bit _ source => some (.bit, source)
  | _ => none

/-- What is moved, on a machine. -/
def value (s : Machine) : Move → Datum
  | .word _ source => .word (s.word source)
  | .bit _ source => .bit (s.bits source)
  | .truth _ value => .bit value

/-- The move of a value of a width from one cell to another. -/
def copy (width : Width) (target source : Nat) : Move :=
  match width with
  | .word => .word target (.cell source)
  | .bit => .bit target source

/-- The move of the value of an op to a slot: from the cell where it is, or of the constant that
it is. -/
def ofOp? (slot : Nat) (op : Op) : Option Move :=
  match op.offset, op.instruction with
  | .absolute base, .ram _ | .absolute base, .rom _ => some (.word slot (.immediate base))
  | .absolute address, instruction => some (.copy (widthOf instruction) slot address)
  | _, .bool value => some (.truth slot value)
  | _, .int value => some (.word slot (.immediate value.toInt))
  | _, _ => none

@[simp]
theorem target_copy (width : Width) (target source : Nat) :
    (copy width target source).target = (width.file, target) := by
  cases width <;> rfl

@[simp]
theorem source?_copy (width : Width) (target source : Nat) :
    (copy width target source).source? = some (width.file, source) := by
  cases width <;> rfl

/-- What is moved from a cell is what the cell holds. -/
theorem value_of_source? {move : Move} {cell : File × Nat} (h : move.source? = some cell)
    (s : Machine) : move.value s = s.datum cell := by
  cases move with
  | word target source =>
      cases source with
      | cell address =>
          cases h
          rfl
      | immediate value => cases h
  | bit target source =>
      cases h
      rfl
  | truth target value => cases h

/-- **A move puts its value into its cell**, and changes no other cell. -/
theorem step (p : Processor) (s : Machine) (move : Move) :
    ∃ s', p.step s move.command = some s' ∧ s'.datum move.target = move.value s ∧
      ∀ cell, cell ≠ move.target → s'.datum cell = s.datum cell := by
  have hframe : ∀ {s' : Machine}, p.step s move.command = some s' →
      ∀ cell, cell ≠ move.target → s'.datum cell = s.datum cell := by
    intro s' hstep cell hne
    refine Processor.step_frame hstep fun hwrites => hne ?_
    cases move <;> exact (Option.some.inj hwrites).symm
  cases move with
  | word target source =>
      exact ⟨_, rfl, congrArg Datum.word (Machine.putRegister_self ..), hframe rfl⟩
  | bit target source =>
      exact ⟨_, rfl, congrArg Datum.bit (Machine.putBit_self ..), hframe rfl⟩
  | truth target value =>
      exact ⟨_, rfl, congrArg Datum.bit (Machine.putBit_self ..), hframe rfl⟩

/-- What a move takes from a machine is the same on another that has the same in its source. -/
theorem value_congr {s s' : Machine} {move : Move}
    (h : ∀ cell, move.source? = some cell → s'.datum cell = s.datum cell) :
    move.value s' = move.value s := by
  cases hsource : move.source? with
  | some cell =>
      rw [value_of_source? hsource, value_of_source? hsource]
      exact h cell hsource
  | none =>
      cases move with
      | word target source =>
          cases source with
          | cell address => cases hsource
          | immediate value => rfl
      | bit target source => cases hsource
      | truth target value => rfl

end Move

/-- **Moves in parallel**: they write different cells, and read none of those. So it makes no
difference in which order they are carried out, and each finds the value that was there before all
of them. -/
structure Parallel (moves : List Move) : Prop where
  targets : (moves.map Move.target).Nodup
  apart : ∀ move ∈ moves, ∀ other ∈ moves, other.source? ≠ some move.target

namespace Parallel

variable {moves order : List Move}

theorem tail {move : Move} (h : Parallel (move :: moves)) : Parallel moves where
  targets := (List.nodup_cons.mp h.targets).2
  apart := fun move hmove other hother =>
    h.apart move (List.mem_cons_of_mem _ hmove) other (List.mem_cons_of_mem _ hother)

theorem perm (h : Parallel moves) (horder : order.Perm moves) : Parallel order where
  targets := (horder.map Move.target).nodup_iff.mpr h.targets
  apart := fun move hmove other hother =>
    h.apart move (horder.mem_iff.mp hmove) other (horder.mem_iff.mp hother)

/-- **Moves in parallel give every cell what they found at first**, and change no other cell. -/
theorem run (p : Processor) : ∀ {moves : List Move}, Parallel moves → ∀ s : Machine,
    ∃ s', p.run (moves.map Move.line) s = some s' ∧
      (∀ move ∈ moves, s'.datum move.target = move.value s) ∧
      ∀ cell, cell ∉ moves.map Move.target → s'.datum cell = s.datum cell
  | [], _, s => ⟨s, rfl, nofun, fun _ _ => rfl⟩
  | first :: rest, h, s => by
    obtain ⟨mid, hstep, hfirst, hother⟩ := Move.step p s first
    obtain ⟨s', hrun, hrest, hframe⟩ := run p h.tail mid
    have hnew : first.target ∉ rest.map Move.target := (List.nodup_cons.mp h.targets).1
    refine ⟨s', ?_, ?_, ?_⟩
    · rw [List.map_cons, Move.line, Processor.run_command, hstep]
      exact hrun
    · intro move hmove
      rcases List.mem_cons.mp hmove with rfl | hmove
      · rw [hframe _ hnew, hfirst]
      · -- the first move left the sources of the others alone
        rw [hrest move hmove]
        refine Move.value_congr fun cell hcell => hother cell fun heq => ?_
        exact h.apart first List.mem_cons_self move (List.mem_cons_of_mem _ hmove) (heq ▸ hcell)
    · intro cell hcell
      obtain ⟨hne, hmem⟩ := not_or.mp (mt List.mem_cons.mpr hcell)
      rw [hframe cell hmem, hother cell hne]

end Parallel

namespace Writing

variable {w : Writing} {index : Nat}

/-- A value that is copied from another cell is moved. -/
theorem copied_of_ne {width : Width} {target source : Nat}
    (hne : (Move.copy width target source).source? ≠ some (Move.copy width target source).target) :
    copied width target source = [(Move.copy width target source).line] := by
  cases width with
  | word => rfl
  | bit =>
      have hcell : target ≠ source := fun heq => hne (by rw [heq]; rfl)
      rw [copied, if_neg hcell]
      rfl

/-- The lines that pass a value are its move, unless that is from a cell to itself. -/
theorem passed?_of_move {slot : Nat} {op : Op} {move : Move} (h : Move.ofOp? slot op = some move)
    (hne : move.source? ≠ some move.target) : passed? slot op = some [move.line] := by
  obtain ⟨instruction, offset, last, position⟩ := op
  cases offset with
  | absolute address =>
      cases instruction with
      | ram | rom =>
          cases h
          rfl
      | _ =>
          cases h
          exact congrArg some (copied_of_ne hne)
  | _ =>
      cases instruction with
      | bool | int =>
          cases h
          rfl
      | _ => cases h

/-- **The line of a parameter** is the move of its value to its slot. -/
theorem parameter_writes {op source : Op} {function name : String} {value slot : Nat}
    {G : Flat.Function} {move : Move} (hinstr : op.instruction = .parameter function name value)
    (hG : w.program.find? function = some G) (hslot : G.locals.find? name = some (.absolute slot))
    (hsource : w.function.body[value]? = some source) (hmove : Move.ofOp? slot source = some move)
    (hne : move.source? ≠ some move.target) : (w.opLines index op).Writes [move.line] () := by
  rw [opLines_writes, hinstr]
  exact ⟨slot, slot_eq_ok.mpr ⟨G, hG, hslot⟩,
    pass_writes.mpr ⟨source, hsource, passed?_of_move hmove hne⟩⟩

/-- Ops of which each writes one line, one after the other. -/
theorem bodyLines_of_lines : ∀ {ops : List Op} {lines : List Line} {index : Nat},
    ops.length = lines.length →
    (∀ (k : Nat) op l, ops[k]? = some op → lines[k]? = some l →
      (w.opLines (index + k) op).Writes [l] ()) → (w.bodyLines index ops).Writes lines ()
  | [], [], _, _, _ => rfl
  | [], _ :: _, _, hlength, _ => by cases hlength
  | _ :: _, [], _, hlength, _ => by cases hlength
  | op :: ops, l :: lines, index, hlength, h => by
    have hrest : (w.bodyLines (index + 1) ops).Writes lines () := by
      refine bodyLines_of_lines (Nat.succ.inj hlength) fun k op' l' hop' hl' => ?_
      rw [Nat.add_assoc, Nat.add_comm 1 k]
      exact h (k + 1) op' l' hop' hl'
    exact Emission.writes_bind.mpr ⟨[l], (), lines, h 0 op l rfl rfl, hrest, rfl⟩

end Writing

end Assembly

namespace Stages.Member

variable {model : Model.Program} {c : Compilation} {s : Stages model c} {label : String}

/-- **What a caller sees is not in the window of what it calls.** -/
theorem Sees.not_holds {m : s.Member label} {cell : File × Nat} (h : m.Sees cell)
    (htidy : c.Tidy model) (hlabel : label ∈ c.layout.order) {j : Nat} {callee : String}
    {result : Option Width} (hx : m.look j = some (.call callee result)) (m' : s.Member callee) :
    ¬(m'.final.window cell.1).Holds cell.2 := by
  have hreached := m.call_reached hlabel hx
  rw [s.order_eq] at hlabel hreached
  rcases h with hholds | ⟨module, name, symbol, hglobal, hfile, hfind⟩
  · obtain ⟨op, hop, hcall⟩ := Flat.exists_of_codeOf_getElem? (m.simple_of_codeOf_final hx nofun)
    obtain ⟨⟨t, ht, htname⟩, hapart⟩ := m.callee_apart hlabel (List.mem_of_getElem? hop) hcall
    obtain ⟨G, hG, hwindows⟩ := hapart t ht htname callee ⟨t, .refl, htname⟩
    rw [m'.final_eq] at hG
    cases hG
    exact hwindows cell.1 cell.2 hholds
  · exact (s.global_apart htidy hglobal hfile hfind).2 callee hreached m'.final m'.final_eq

/-- The move of a value that is in a cell. -/
theorem exists_copy (m : s.Member label) {op : Op} {kind : Width} {address : Nat} (slot : Nat)
    (hoffset : op.offset = .absolute address) (htable : op.instruction.isTable = false)
    (hkind : op.instruction.kind? = some kind) (hsees : m.Sees (kind.file, address)) :
    ∃ move, Move.ofOp? slot op = some move ∧ move.target = (kind.file, slot) ∧
      ∀ cell, move.source? = some cell → m.Sees cell := by
  obtain ⟨instruction, offset, last, position⟩ := op
  cases hoffset
  refine ⟨.copy kind slot address, ?_, Move.target_copy .., fun cell hcell => ?_⟩
  · rw [← widthOf_eq_of_kind? hkind]
    cases instruction with
    | ram | rom => cases htable
    | _ => rfl
  · rw [Move.source?_copy] at hcell
    cases hcell
    exact hsees

/-- **The move of a value that is passed.**  The value is in a cell that the caller sees, or a
constant. -/
theorem exists_move (m : s.Member label) (hfiled : model.Filed) (hkeeps : m.source.KeepsResult)
    {i value : Nat} {function name : String}
    (hx : m.look i = some (.parameter function name value)) {op : Op} {kind : Width}
    (hop : m.final.body[value]? = some op) (hkind : op.instruction.kind? = some kind) (slot : Nat) :
    ∃ move, Move.ofOp? slot op = some move ∧ move.target = (kind.file, slot) ∧
      ∀ cell, move.source? = some cell → m.Sees cell := by
  have hplaced := m.placement hop
  have hy := Flat.codeOf_getElem? hop
  have hoperand : value ∈ (Instruction.parameter function name value).operands :=
    List.mem_singleton_self value
  have htemp : ∀ {width : Width}, op.instruction.kind? = some width →
      op.instruction.isTable = false → m.Temp value width op.offset →
      ∃ move, Move.ofOp? slot op = some move ∧ move.target = (width.file, slot) ∧
        ∀ cell, move.source? = some cell → m.Sees cell := by
    rintro width hwidth htable ⟨hclaims, slot', hpins, hlt, heq⟩
    exact m.exists_copy slot heq htable hwidth (m.sees_of_temp ⟨hclaims, slot', hpins, hlt, rfl⟩)
  obtain ⟨instruction, offset, last, position⟩ := op
  cases instruction with
  | register var | bit var =>
      cases hkind
      obtain ⟨address, hvar, heq⟩ := hplaced
      exact m.exists_copy slot heq rfl rfl (m.sees_of_variable hfiled hkeeps
        (m.simple_of_codeOf_final hy (by simp)) rfl rfl hvar)
  | ram var | rom var =>
      cases hkind
      obtain ⟨_, address, _, _, heq⟩ := hplaced
      cases heq
      exact ⟨_, rfl, rfl, fun cell hcell => by cases hcell⟩
  | portIn port =>
      cases hkind
      rcases hplaced with ⟨hslot, _⟩ | ⟨u, t, var, address, hreads, _, _⟩
      · exact htemp rfl rfl hslot
      · -- a port that is read straight into a variable is used by its assignment
        obtain ⟨l⟩ := m.exists_lineage
        have hparameter := m.simple_of_codeOf_final hx (by simp)
        have hsame := l.linear.once u i _ _ value hreads.assign hparameter
          (by simp [Instruction.operands]) hoperand
        subst hsame
        rw [hreads.assign] at hparameter
        cases hparameter
  | int value' | bool value' =>
      cases hkind
      have hliteral : (if value ∈ m.framing.visit.literals then m.Temp value _ offset
        else offset = .unresolved) := hplaced
      split at hliteral
      · exact htemp rfl rfl hliteral
      · cases hliteral
        exact ⟨_, rfl, rfl, fun cell hcell => by cases hcell⟩
  | compare test width lhs rhs =>
      cases hkind
      have hcomparison : m.Comparison value offset := hplaced
      have hlast := m.lastUse_eq hx hoperand hy (by simp) rfl
      obtain ⟨user, huser, hinstr⟩ := Flat.exists_of_codeOf_getElem? ((m.look_eq i).symm.trans hx)
      unfold Comparison at hcomparison
      rw [hlast] at hcomparison
      split at hcomparison
      · rename_i hfeeds
        simp [Storage.feedsBranch, huser, hinstr] at hfeeds
      · rcases hcomparison with ⟨_, hslot⟩ | ⟨var, address, hcopy, _, _⟩
        · exact htemp rfl rfl hslot
        · obtain ⟨target, hassign, _⟩ := Storage.copyTarget?_bit hcopy
          rw [Flat.codeOf_getElem? huser, hinstr] at hassign
          cases hassign
  | math o width lhs rhs | element space array index =>
      cases hkind
      exact htemp rfl rfl hplaced
  | call function' result =>
      cases result with
      | none => cases hkind
      | some width =>
          cases hkind
          exact htemp rfl rfl hplaced
  | _ => cases hkind

/-- A symbol in a file has a cell of that file. -/
theorem cell_of_symbol (m : s.Member label) {name : String} {symbol : Model.Symbol} {file : File}
    (hfind : m.source.symbols.find? name = some symbol)
    (hfile : Storage.fileOf? symbol.storage = some file) (hkeeps : m.source.KeepsResult) :
    ∃ slot, m.final.locals.find? name = some (.absolute slot) ∧
      s.localCell? label name = some (file, slot) := by
  obtain ⟨pinned, hpinned⟩ := m.framing.local_file hfind hfile hkeeps
  obtain ⟨slot, hfinal, _⟩ := m.local_final hpinned
  obtain ⟨file', pinned', hcell, _, heq⟩ := m.localCell?_eq_some hfinal
  cases heq
  obtain ⟨_, hpinned', _, _⟩ := m.slot_of_localCell? hcell
  rw [hpinned] at hpinned'
  cases hpinned'
  exact ⟨_, hfinal, hcell⟩

end Stages.Member

/-- **The moves of a call.**  In front of the call there is an op for each parameter that the
callee declares, and what is written for these ops is one move for each: of the value of the
argument, to the slot that the callee has for the parameter, in its window of that file. -/
structure Compilation.Passes (c : Compilation) (F G : Flat.Function) (f : Model.Function)
    (callee : String) (first : Nat) (moves : List Move) : Prop where
  length_eq : moves.length = f.parameters.length
  moved : ∀ (k : Nat) p move, f.parameters[k]? = some p → moves[k]? = some move →
    ∃ value source, (codeOf F.body)[first + k]? = some (.parameter callee p.name value) ∧
      F.body[value]? = some source ∧ Move.ofOp? move.target.2 source = some move ∧
      G.locals.find? p.name = some (.absolute move.target.2) ∧
      (G.window move.target.1).Holds move.target.2
  lines : (Writing.bodyLines ⟨c.program, c.layout.addresses, F⟩ first
    ((F.body.drop first).take moves.length)).Writes (moves.map Move.line) ()

namespace Stages.Member

variable {model : Model.Program} {c : Compilation} {s : Stages model c} {label : String}

/-- What a caller hands over at an index: the parameter's op, the cell that the callee has for it,
and the move of its value. -/
structure Hands (m : s.Member label) {callee : String} (m' : s.Member callee) (i : Nat)
    (name : String) (move : Move) : Prop where
  passed : ∃ value source, m.look i = some (.parameter callee name value) ∧
    m.final.body[value]? = some source ∧ Move.ofOp? move.target.2 source = some move
  slot : m'.final.locals.find? name = some (.absolute move.target.2)
  cell : s.localCell? callee name = some move.target
  sees : ∀ cell, move.source? = some cell → m.Sees cell

/-- What it hands over from an index on: a value for each parameter of the callee. -/
structure HandsAll (m : s.Member label) {callee : String} (m' : s.Member callee) (first : Nat)
    (moves : List Move) : Prop where
  length_eq : moves.length = m'.source.parameters.length
  hands : ∀ (k : Nat) p move, m'.source.parameters[k]? = some p → moves[k]? = some move →
    m.Hands m' (first + k) p.name move

/-- The cell of a parameter is in the window of the callee. -/
theorem Hands.holds {m : s.Member label} {callee : String} {m' : s.Member callee} {i : Nat}
    {name : String} {move : Move} (h : m.Hands m' i name move) :
    (m'.final.window move.target.1).Holds move.target.2 := by
  obtain ⟨_, _, _, hholds⟩ := m'.holds_of_localCell? h.cell
  exact hholds

/-- **Every parameter has its move.** -/
theorem exists_hands (m : s.Member label) (htyped : model.ArgumentTyped) (hfiled : model.Filed)
    (hkeeps : model.KeepsResults) {callee : String} (m' : s.Member callee) {i value : Nat}
    {name : String} (hx : m.look i = some (.parameter callee name value)) :
    ∃ move, m.Hands m' i name move := by
  obtain ⟨f, p, kind, hf, _, rfl, hkept, y, hy, hkind⟩ := m.supplied htyped hx callee _ value rfl
  obtain ⟨source, hsource, rfl⟩ := Flat.exists_of_codeOf_getElem? hy
  obtain rfl : f = m'.source := Except.ok.inj (hf.symm.trans m'.source_eq)
  obtain ⟨symbol, hfind, hfile⟩ := Option.bind_eq_some_iff.mp hkept
  obtain ⟨module, hmodule, hmem⟩ := m.source_mem hfiled
  obtain ⟨module', hmodule', hmem'⟩ := m'.source_mem hfiled
  obtain ⟨slot, hlocal, hcell⟩ := m'.cell_of_symbol hfind hfile (hkeeps module' hmodule' _ hmem')
  obtain ⟨move, hmove, htarget, hsees⟩ :=
    m.exists_move hfiled (hkeeps module hmodule _ hmem) hx hsource hkind slot
  refine ⟨move, ⟨value, source, hx, hsource, ?_⟩, ?_, ?_, hsees⟩
  · rw [htarget]
    exact hmove
  · rw [htarget]
    exact hlocal
  · rw [htarget]
    exact hcell

/-- **Every call has its moves.** -/
theorem exists_handsAll (m : s.Member label) (htyped : model.ArgumentTyped) (hfiled : model.Filed)
    (hkeeps : model.KeepsResults) {callee : String} (m' : s.Member callee) {first : Nat}
    {result : Option Width} {refs : List Nat}
    (hcall : Flat.CallAt model 0 (codeOf m.final.body) first callee result m'.source refs) :
    ∃ moves, m.HandsAll m' first moves := by
  have hhands : ∀ k : Fin m'.source.parameters.length,
      ∃ move, m.Hands m' (first + k) m'.source.parameters[k].name move := by
    intro k
    have hr := List.getElem?_eq_getElem (hcall.length_eq.symm ▸ k.isLt : k.val < refs.length)
    exact m.exists_hands htyped hfiled hkeeps m'
      (hcall.parameter k _ _ (List.getElem?_eq_getElem k.isLt) hr)
  choose move hmove using hhands
  refine ⟨List.ofFn move, List.length_ofFn, fun k p move' hp hmove' => ?_⟩
  obtain ⟨hlt, rfl⟩ := List.getElem?_eq_some_iff.mp hp
  rw [List.getElem?_ofFn, dif_pos hlt] at hmove'
  cases hmove'
  exact hmove ⟨k, hlt⟩

namespace HandsAll

variable {m : s.Member label} {j first : Nat} {callee : String} {result : Option Width}
  {m' : s.Member callee} {moves : List Move}

/-- **The moves are parallel**: the callee has different cells for its parameters, none of which
the caller sees. -/
theorem parallel (h : m.HandsAll m' first moves) (htidy : c.Tidy model)
    (hlabel : label ∈ c.layout.order) (hx : m.look j = some (.call callee result))
    (hdistinct : (m'.source.parameters.map (·.name)).Nodup) : Parallel moves := by
  have hat : ∀ k (hk : k < moves.length),
      m.Hands m' (first + k) (m'.source.parameters.get ⟨k, h.length_eq ▸ hk⟩).name moves[k] :=
    fun k hk => h.hands k _ _ (List.getElem?_eq_getElem _) (List.getElem?_eq_getElem hk)
  have hmem : ∀ move ∈ moves, ∃ k name, m.Hands m' k name move := by
    intro move hmove
    obtain ⟨k, hk, rfl⟩ := List.mem_iff_getElem.mp hmove
    exact ⟨_, _, hat k hk⟩
  constructor
  · refine List.pairwise_map.mpr (List.pairwise_iff_getElem.mpr fun i j hi hj hij heq => ?_)
    have hname := m'.localCell?_inj (hat i hi).cell (heq ▸ (hat j hj).cell)
    exact List.pairwise_iff_getElem.mp (List.pairwise_map.mp hdistinct) i j (h.length_eq ▸ hi)
      (h.length_eq ▸ hj) hij hname
  · intro move hmove other hother hsource
    obtain ⟨_, _, hhands⟩ := hmem move hmove
    obtain ⟨_, _, hhands'⟩ := hmem other hother
    exact (hhands'.sees _ hsource).not_holds htidy hlabel hx m' hhands.holds

/-- **What is written for the parameters of a call** are the moves, one line for each parameter, in
the order of the parameters. -/
theorem passes (h : m.HandsAll m' first moves) (hparallel : Parallel moves)
    (hx : m.look (first + moves.length) = some (.call callee result)) :
    c.Passes m.final m'.final m'.source callee first moves := by
  refine ⟨h.length_eq, fun k p move hp hmove => ?_, ?_⟩
  · have hhands := h.hands k p move hp hmove
    obtain ⟨value, source, hparameter, hsource, hof⟩ := hhands.passed
    exact ⟨value, source, hparameter, hsource, hof, hhands.slot, hhands.holds⟩
  · have hlt : first + moves.length < m.final.body.length := by
      simpa [codeOf] using (List.getElem?_eq_some_iff.mp hx).1
    refine Writing.bodyLines_of_lines ?_ fun k op l hop hl => ?_
    · rw [List.length_take, List.length_drop, List.length_map]
      omega
    · rw [List.getElem?_map] at hl
      obtain ⟨move, hmove, rfl⟩ := Option.map_eq_some_iff.mp hl
      have hk := (List.getElem?_eq_some_iff.mp hmove).1
      rw [List.getElem?_take_of_lt hk, List.getElem?_drop] at hop
      have hhands := h.hands k _ move (List.getElem?_eq_getElem (h.length_eq ▸ hk)) hmove
      obtain ⟨value, source, hparameter, hsource, hof⟩ := hhands.passed
      have hinstr := (Flat.codeOf_getElem? hop).symm.trans hparameter
      exact Writing.parameter_writes (Option.some.inj hinstr) m'.final_eq hhands.slot hsource hof
        (hparallel.apart move (List.mem_of_getElem? hmove) move (List.mem_of_getElem? hmove))

end HandsAll

end Stages.Member

/-- **Parameter passing is a parallel move.**  Take an accepted program that is typed as to its
arguments, in which functions are stored where their labels say, no symbol takes the place of a
result in another file, and globals keep to their own cells.  Then in front of every call that is
left in a function of the layout there is one move for each parameter of the callee: of the value
of its argument, to the slot of the parameter in the callee's window.  The moves write different
cells and read none of them; so in whatever order they are made, and on whatever machine, each
slot gets what its argument's cell held at first, and no other cell changes. -/
theorem parameters_move_in_parallel {model : Model.Program} {c : Compilation}
    (h : build model = .ok c) (htyped : model.ArgumentTyped) (hfiled : model.Filed)
    (hkeeps : model.KeepsResults) (htidy : c.Tidy model) :
    ∀ label ∈ c.layout.order, ∃ F, c.program.find? label = some F ∧
      ∀ (j : Nat) (callee : String) (result : Option Width),
        (codeOf F.body)[j]? = some (.call callee result) →
        ∃ f G first moves, model.function callee = .ok f ∧ c.program.find? callee = some G ∧
          j = first + moves.length ∧ c.Passes F G f callee first moves ∧ Parallel moves ∧
          ∀ order, List.Perm order moves → ∀ (p : Processor) (machine : Machine),
            ∃ after, p.run (order.map Move.line) machine = some after ∧
              (∀ move ∈ moves, after.datum move.target = move.value machine) ∧
              ∀ cell, cell ∉ moves.map Move.target → after.datum cell = machine.datum cell := by
  obtain ⟨s⟩ := stages_of_build h
  intro label hlabel
  obtain ⟨m⟩ := s.exists_member (s.order_eq ▸ hlabel)
  refine ⟨m.final, m.final_eq, fun j callee result hx => ?_⟩
  obtain ⟨m'⟩ := s.exists_member (s.order_eq ▸ m.call_reached hlabel hx)
  obtain ⟨first, f, refs, hcall, rfl⟩ := m.call_site hx
  obtain rfl : f = m'.source := Except.ok.inj (hcall.callee_eq.symm.trans m'.source_eq)
  obtain ⟨module, hmodule, hmem⟩ := m'.source_mem hfiled
  obtain ⟨moves, hhands⟩ := m.exists_handsAll htyped hfiled hkeeps m' hcall
  have hparallel := hhands.parallel htidy hlabel hx (htyped module hmodule _ hmem).distinct
  rw [hcall.length_eq.trans hhands.length_eq.symm] at hx ⊢
  refine ⟨m'.source, m'.final, first, moves, m'.source_eq, m'.final_eq, rfl,
    hhands.passes hparallel hx, hparallel, fun order horder p machine => ?_⟩
  obtain ⟨after, hrun, hmoved, hframe⟩ := (hparallel.perm horder).run p machine
  exact ⟨after, hrun, fun move hmove => hmoved move (horder.mem_iff.mpr hmove),
    fun cell hcell => hframe cell (mt (horder.map Move.target).mem_iff.mp hcell)⟩

/-- A function with a word and a truth value as parameters. -/
def pick : Model.Function :=
  (({ label := "demo.pick", returns := some .int } : Model.Function).addParameter "n" .int
    |>.addParameter "up" .bool).withBody [.ret (some (.var "n"))]

/-- A program whose entry calls `pick` in the arguments of `pick`. -/
def pickedTwice : Model.Program :=
  let inner : Model.Expr := .call "pick" [.int 1, .var "b"]
  let entry : Model.Function :=
    ({ label := "demo.main" } : Model.Function).addSymbol "x" .word |>.addSymbol "b" .flag
      |>.withBody [.assign (.var "x") none
        (.call "pick" [inner, .compare .lt (.var "x") (.int 3)])]
  let demo : Model.Module := (({} : Model.Module).addFunction entry).addFunction pick
  { name := "demo", modules := Table.empty.insert "demo" demo }

/-- The outer call of `pickedTwice` moves the result of the inner one and the outcome of a
comparison. -/
theorem parameters_move_in_parallel_pickedTwice :
    ∃ c F, build pickedTwice = .ok c ∧ c.program.find? "demo.main" = some F ∧
      (codeOf F.body)[11]? = some (.call "demo.pick" (some .word)) ∧
      ∃ G moves, c.program.find? "demo.pick" = some G ∧
        c.Passes F G pick "demo.pick" 9 moves ∧ Parallel moves := by
  have hshape : (build pickedTwice).toOption.bind (fun c =>
      (c.program.find? "demo.main").map fun F =>
        (decide (c.Tidy pickedTwice), c.layout.order, (codeOf F.body)[11]?)) =
      some (true, ["demo.main", "demo.pick"], some (.call "demo.pick" (some .word))) := by
    decide +kernel
  obtain ⟨c, hbuild, hshape⟩ := Option.bind_eq_some_iff.mp hshape
  obtain ⟨F, hF, hshape⟩ := Option.map_eq_some_iff.mp hshape
  simp only [Prod.mk.injEq, decide_eq_true_eq] at hshape
  obtain ⟨htidy, horder, hcall⟩ := hshape
  have hbuild := toOption_eq_some.mp hbuild
  obtain ⟨F', hF', hall⟩ := parameters_move_in_parallel hbuild (by decide +kernel)
    (by decide +kernel) (by decide +kernel) htidy "demo.main" (by simp [horder])
  rw [hF] at hF'
  cases hF'
  obtain ⟨f, G, first, moves, hf, hG, hfirst, hpasses, hparallel, _⟩ := hall 11 _ _ hcall
  have hsame : f = pick := Except.ok.inj (hf.symm.trans rfl)
  subst hsame
  have hlength : moves.length = 2 := hpasses.length_eq
  obtain rfl : first = 9 := by omega
  exact ⟨c, F, hbuild, hF, hcall, G, moves, hG, hpasses, hparallel⟩

/-- What is written for some ops of a function, with the instruction behind them. -/
def Compilation.site? (c : Compilation) (label : String) (first n : Nat) :
    Option (List Line × Option Instruction) := do
  let F ← c.program.find? label
  let emission := Writing.bodyLines ⟨c.program, c.layout.addresses, F⟩ first
    ((F.body.drop first).take n)
  let _ ← emission.outcome.toOption
  return (emission.lines, (codeOf F.body)[first + n]?)

/-- A function with two words as parameters. -/
def taking (label : String) : Model.Function :=
  ({ label } : Model.Function).addParameter "x" .int |>.addParameter "y" .int

/-- A program with two globals of the label `a.b.c`: a variable `b.c` of the module `a`, and an
array `c` of the module `a.b`, whose address stands for both. -/
def collidingArgument : Model.Program :=
  let entry : Model.Function :=
    ({ label := "a.main" } : Model.Function).withBody [.call "f" [.int 1, .var "a.b.c"]]
  let outer : Model.Module :=
    ((({} : Model.Module).addSymbol "b.c" .word).addFunction entry).addFunction (taking "a.f")
  let inner : Model.Module :=
    (({} : Model.Module).addSymbol "a" (.ramArray 4)).addSymbol "c" (.ramArray 1)
  { name := "a", modules := (Table.empty.insert "a" outer).insert "a.b" inner }

/-- A program with two functions of one label.  One gives the entry its storage, and the other,
stored under another label, its code. -/
def misfiledEntry : Model.Program :=
  let entry : Model.Function :=
    ({ label := "demo.main" } : Model.Function).addSymbol "k" .flag |>.addSymbol "l" .flag
      |>.addSymbol "m" .flag
  let other : Model.Function :=
    (({ label := "demo.main" } : Model.Function).addSymbol "k" .word).withBody
      [.call "f" [.int 1, .var "k"]]
  let demo : Model.Module := (({} : Model.Module).addFunction entry).addFunction (taking "demo.f")
  { name := "demo", modules := Table.empty.insert "demo"
      { demo with functions := demo.functions.insert "demo.z" other } }

/-- A program with a function that has a parameter with the name of its result, in another file. -/
def resultParameter : Model.Program :=
  let entry : Model.Function :=
    ({ label := "demo.main" } : Model.Function).withBody [.call "f" [.bool true]]
  let f : Model.Function :=
    ({ label := "demo.f", returns := some .int } : Model.Function).addParameter "return" .bool
  let demo : Model.Module := (({} : Model.Module).addFunction entry).addFunction f
  { name := "demo", modules := Table.empty.insert "demo" demo }

/-- **Each of the conditions is needed.**  In `collidingArgument` and in `misfiledEntry` the first
move of the call writes what the second one reads, and in `resultParameter` the move writes a bit
that is not in the window of the callee. -/
theorem argument_moves_clash :
    (∃ c, build collidingArgument = .ok c ∧ collidingArgument.ArgumentTyped ∧
      collidingArgument.Filed ∧ collidingArgument.KeepsResults ∧
      (∀ g ∈ Storage.globals collidingArgument, g.2.storage = .register → 1 ≤ g.2.count.toNat) ∧
      (∀ g ∈ Storage.globals collidingArgument, g.2.storage ≠ .bit) ∧ "a.main" ∈ c.layout.order ∧
      c.site? "a.main" 3 2 = some ([Move.word 4 (.immediate 1), .word 3 (.cell 4)].map Move.line,
        some (.call "a.f" none)) ∧ ¬Parallel [.word 4 (.immediate 1), .word 3 (.cell 4)]) ∧
    (∃ c, build misfiledEntry = .ok c ∧ misfiledEntry.ArgumentTyped ∧ misfiledEntry.KeepsResults ∧
      c.Tidy misfiledEntry ∧ "demo.main" ∈ c.layout.order ∧
      c.site? "demo.main" 3 2 = some ([Move.word 3 (.immediate 1), .word 2 (.cell 3)].map Move.line,
        some (.call "demo.f" none)) ∧ ¬Parallel [.word 3 (.immediate 1), .word 2 (.cell 3)]) ∧
    ∃ c G, build resultParameter = .ok c ∧ resultParameter.ArgumentTyped ∧ resultParameter.Filed ∧
      c.Tidy resultParameter ∧ "demo.main" ∈ c.layout.order ∧
      c.site? "demo.main" 2 1 =
        some ([Move.truth 2 true].map Move.line, some (.call "demo.f" none)) ∧
      c.program.find? "demo.f" = some G ∧ ¬(G.window .bit).Holds (Move.truth 2 true).target.2 := by
  refine ⟨?_, ?_, ?_⟩
  · have hshape : (build collidingArgument).toOption.map (fun c =>
        (decide ("a.main" ∈ c.layout.order), c.site? "a.main" 3 2)) =
        some (true, some ([Move.word 4 (.immediate 1), .word 3 (.cell 4)].map Move.line,
          some (.call "a.f" none))) := by decide +kernel
    obtain ⟨c, hbuild, hshape⟩ := Option.map_eq_some_iff.mp hshape
    simp only [Prod.mk.injEq, decide_eq_true_eq] at hshape
    refine ⟨c, toOption_eq_some.mp hbuild, by decide +kernel, by decide +kernel, by decide +kernel,
      by decide +kernel, by decide +kernel, hshape.1, hshape.2, fun h => ?_⟩
    exact h.apart _ List.mem_cons_self _ (List.mem_cons_of_mem _ List.mem_cons_self) rfl
  · have hshape : (build misfiledEntry).toOption.map (fun c =>
        (decide (c.Tidy misfiledEntry ∧ "demo.main" ∈ c.layout.order), c.site? "demo.main" 3 2)) =
        some (true, some ([Move.word 3 (.immediate 1), .word 2 (.cell 3)].map Move.line,
          some (.call "demo.f" none))) := by decide +kernel
    obtain ⟨c, hbuild, hshape⟩ := Option.map_eq_some_iff.mp hshape
    simp only [Prod.mk.injEq, decide_eq_true_eq] at hshape
    refine ⟨c, toOption_eq_some.mp hbuild, by decide +kernel, by decide +kernel, hshape.1.1,
      hshape.1.2, hshape.2, fun h => ?_⟩
    exact h.apart _ List.mem_cons_self _ (List.mem_cons_of_mem _ List.mem_cons_self) rfl
  · have hshape : (build resultParameter).toOption.bind (fun c =>
        (c.program.find? "demo.f").map fun G => (decide (c.Tidy resultParameter ∧
          "demo.main" ∈ c.layout.order ∧ (G.window .bit).base + (G.window .bit).count ≤ 2),
          c.site? "demo.main" 2 1)) =
        some (true, some ([Move.truth 2 true].map Move.line, some (.call "demo.f" none))) := by
      decide +kernel
    obtain ⟨c, hbuild, hshape⟩ := Option.bind_eq_some_iff.mp hshape
    obtain ⟨G, hG, hshape⟩ := Option.map_eq_some_iff.mp hshape
    simp only [Prod.mk.injEq, decide_eq_true_eq] at hshape
    obtain ⟨⟨htidy, horder, hend⟩, hsite⟩ := hshape
    exact ⟨c, G, toOption_eq_some.mp hbuild, by decide +kernel, by decide +kernel, htidy, horder,
      hsite, hG, fun hholds => Nat.not_lt.mpr hend hholds.2⟩

end Stackless
