import Stackless.Proofs.Footprint
import Stackless.Proofs.GlobalAddresses
import Stackless.Proofs.Machine

/-!
# The tables in the constants ROM

Arrays of constants are handled twice.  The allocation gives each its address, and moves on by
the number of elements that the array declares; the emission writes the values that it has.  Both
take the same arrays in the same order, so they agree just if every array has as many values as
it declares, which nothing checks.

* `constantWords_compile` — an output puts the values of all arrays into the ROM, one array after
  the other, and nothing else;
* `Stages.tablesAgree_iff` — these words are where the layout says just if all arrays are as long
  as they declare;
* `Member.element_reads` — a read of an element reads the ROM at the address of the array and the
  index;
* `tables_agree_iff` — all of it together.

In `short_table_shifts` an array that is too short makes the program read a value of another one.
-/

namespace Stackless

open Flat (Op Instruction Offset Space Var codeOf)
open Assembly
open Model (Symbol)
open Storage (tables declared isConstantArray)

namespace Assembly

/-- The words that a line puts into the constants ROM. -/
def Line.words : Line → List Int32
  | .constants values => values
  | _ => []

/-- The words that lines put into the constants ROM, from address 0 on. -/
def constantWords (lines : List Line) : List Int32 :=
  lines.flatMap Line.words

@[simp]
theorem constantWords_append (xs ys : List Line) :
    constantWords (xs ++ ys) = constantWords xs ++ constantWords ys :=
  List.flatMap_append

namespace Emission

variable {α β : Type}

/-- An emission that puts nothing into the constants ROM, however it ends. -/
def Wordless (e : Emission α) : Prop :=
  constantWords e.lines = []

/-- Emissions one after the other put nothing there if none of them does. -/
theorem Wordless.bind {e : Emission α} {f : α → Emission β} (he : e.Wordless)
    (hf : ∀ a, (f a).Wordless) : (e >>= f).Wordless := by
  show constantWords (e.andThen f).lines = []
  unfold andThen
  split
  · exact he
  · show constantWords (_ ++ _) = []
    rw [constantWords_append, he, hf]
    rfl

end Emission

namespace Writing

variable {w : Writing} {index : Nat}

/-- **No op puts words into the ROM.** -/
theorem wordless_opLines (op : Op) : (w.opLines index op).Wordless := by
  unfold opLines branch compare leftHandSide mathWord mathBit assignBit assignWord inRegister
    elementAddress pass copy
  repeat' first
    | exact rfl
    | apply Emission.Wordless.bind
    | intro _
    | split

/-- The lines of ops put no words into the ROM. -/
theorem constantWords_written (ops : List Op) : constantWords (w.written index ops) = [] := by
  apply List.flatMap_eq_nil_iff.mpr
  intro l hl
  obtain ⟨n, op, _, hl⟩ := mem_written.mp hl
  exact List.flatMap_eq_nil_iff.mp (w.wordless_opLines op) l hl

end Writing

/-- Sections put no words into the ROM. -/
theorem constantWords_sectionLines (p : Flat.Program) (addresses : Table Nat) (label : String) :
    constantWords (sectionLines p addresses label) = [] := by
  unfold sectionLines
  split
  · rfl
  · rw [constantWords_append, Writing.constantWords_written]
    rfl

/-- The words of arrays of constants, one array after the other. -/
def spelled (gs : List (String × Symbol)) : List Int32 :=
  gs.flatMap fun g => g.2.values

/-- What stands before the sections puts the words of all arrays into the ROM. -/
theorem constantWords_prelude (model : Model.Program) :
    constantWords (preludeLines model) = spelled (tables model) := by
  have hsymbols : model.modules.values.flatMap (fun m => m.symbols.values) =
      (Storage.globals model).map Prod.snd := by
    simp only [Storage.globals, Table.values, List.flatMap_map, List.map_flatMap, List.map_map]
    rfl
  have harrays : (model.modules.values.flatMap fun m => m.symbols.values).filter isConstantArray =
      (tables model).map Prod.snd := by
    rw [hsymbols, List.filter_map]
    rfl
  have hvectors : constantWords (vectorLines model) = [] := by
    simp [constantWords, vectorLines, Line.words]
  rw [preludeLines, constantWords_append, hvectors, List.append_nil]
  simp [constantLines, harrays, constantWords, spelled, Line.words, List.flatMap_map]

/-- **The constants of an output** are the words of all arrays, in the order in which the arrays
are placed. -/
theorem constantWords_compile {model : Model.Program} (h : (compile model).outcome = .ok ()) :
    ∃ c, build model = .ok c ∧
      (∀ label ∈ c.layout.order, Writable c.program c.layout.addresses label) ∧
      constantWords (compile model).lines = spelled (tables model) := by
  obtain ⟨c, hbuild, hwritable, hlines⟩ := compile_writes.mp (Emission.writes_of_outcome h)
  refine ⟨c, hbuild, hwritable, ?_⟩
  have hsections : constantWords (c.layout.order.flatMap
      (sectionLines c.program c.layout.addresses)) = [] := by
    rw [constantWords, List.flatMap_assoc]
    exact List.flatMap_eq_nil_iff.mpr fun label _ => constantWords_sectionLines ..
  rw [hlines, constantWords_append, constantWords_prelude, hsections, List.append_nil]

end Assembly

section Alignment

/-- Arrays that have as many values as they declare have as many words. -/
theorem length_spelled {gs : List (String × Symbol)}
    (h : ∀ g ∈ gs, g.2.values.length = g.2.count.toNat) : (spelled gs).length = declared gs := by
  rw [spelled, List.length_flatMap, declared]
  exact congrArg List.sum (List.map_congr_left h)

/-- The words of an array stand behind those of the arrays before it. -/
theorem take_spelled (before after : List (String × Symbol)) (g : String × Symbol) :
    ((spelled (before ++ g :: after)).drop (spelled before).length).take g.2.values.length =
      g.2.values := by
  have hsplit : spelled (before ++ g :: after) =
      spelled before ++ (g.2.values ++ spelled after) := by simp [spelled]
  rw [hsplit, List.drop_left, List.take_left]

/-- **The two passes agree** on how many words there are and where each array starts just if
every array has as many values as it declares. -/
theorem aligned_iff {gs : List (String × Symbol)} :
    ((spelled gs).length = declared gs ∧ ∀ before g after, gs = before ++ g :: after →
      ((spelled gs).drop (declared before)).take g.2.count.toNat = g.2.values) ↔
    ∀ g ∈ gs, g.2.values.length = g.2.count.toNat := by
  constructor
  · rintro ⟨htotal, htables⟩ g hg
    obtain ⟨before, after, rfl⟩ := List.append_of_mem hg
    have htable := congrArg List.length (htables before g after rfl)
    rw [List.length_take, List.length_drop, htotal] at htable
    simp only [declared, List.map_append, List.map_cons, List.sum_append, List.sum_cons] at htable
    omega
  · intro hproper
    refine ⟨length_spelled hproper, ?_⟩
    rintro before g after rfl
    rw [← length_spelled fun g' hg' => hproper g' (List.mem_append_left _ hg'),
      ← hproper g (List.mem_append_right _ List.mem_cons_self)]
    exact take_spelled before after g

end Alignment

/-- The words of the constants ROM are those that the layout says: as many as it counts, and the
values of each array at its address. -/
structure Compilation.TablesAgree (model : Model.Program) (c : Compilation) (words : List Int32) :
    Prop where
  total : words.length = c.layout.constants
  table : ∀ g ∈ tables model, ∃ address, c.layout.addresses.find? g.1 = some address ∧
    (words.drop address).take g.2.count.toNat = g.2.values

namespace Stages

variable {model : Model.Program} {c : Compilation} (s : Stages model c)
include s

/-- **When the tables are where the layout says.**  Words are counted by what the arrays declare and
written by what they hold, and the two agree just if every array holds as many values as it
declares. -/
theorem tablesAgree_iff (h : model.LabelsApart) :
    c.TablesAgree model (spelled (tables model)) ↔
      ∀ g ∈ tables model, g.2.values.length = g.2.count.toNat := by
  rw [← aligned_iff, ← s.constants_eq]
  constructor
  · rintro ⟨htotal, htable⟩
    refine ⟨htotal, fun before g after hsplit => ?_⟩
    have hg : g ∈ tables model := by
      rw [hsplit]
      exact List.mem_append_right _ List.mem_cons_self
    obtain ⟨address, haddress, hwords⟩ := htable g hg
    rw [s.table_address h hsplit] at haddress
    cases haddress
    exact hwords
  · rintro ⟨htotal, htable⟩
    refine ⟨htotal, fun g hg => ?_⟩
    obtain ⟨before, after, hsplit⟩ := List.append_of_mem hg
    exact ⟨_, s.table_address h hsplit, htable before g after hsplit⟩

end Stages

/-- The constants ROM of the processor holds words from address 0 on, as the lines that fill it
say. -/
def Processor.HoldsWords (p : Processor) (words : List Int32) : Prop :=
  ∀ k value, words[k]? = some value → p.constants (BitVec.ofNat 18 k) = BitVec.ofInt 18 value.toInt

/-- The lines of a read from the constants ROM leave there what is at a base and an index. -/
theorem Processor.run_lookup (p : Processor) (machine : Machine) (target : Nat) (source : Source)
    (base : Nat) : ∃ after, p.run [.command (.move target source),
        .command (.word .add target (.immediate base)), .command (.load .rom target target)] machine =
          some after ∧
      after.registers target = p.constants (machine.word source + BitVec.ofInt 18 base) := by
  refine ⟨_, rfl, ?_⟩
  simp [Machine.word, Processor.memory, Processor.reckon]

namespace Stages.Member

variable {model : Model.Program} {c : Compilation} {s : Stages model c} {label : String}

/-- **A read of an array of constants** reads the ROM at the address of the array and its
index. -/
theorem element_reads (m : s.Member label) {j array index : Nat} {op : Op} {name : String}
    (hop : m.final.body[j]? = some op) (hinstr : op.instruction = .element .rom array index)
    (harray : (codeOf m.final.body)[array]? = some (.rom (.globalVar name)))
    (hok : (m.writing.opLines j op).outcome = .ok ()) :
    ∃ target source address, op.offset = .absolute target ∧ m.writing.operand index = .ok source ∧
      c.layout.addresses.find? name = some address ∧
      ∀ (p : Processor) (machine : Machine) (k : Nat), machine.word source = BitVec.ofNat 18 k →
        ∃ after, p.run (m.writing.opLines j op).lines machine = some after ∧
          after.registers target = p.constants (BitVec.ofNat 18 (address + k)) := by
  obtain ⟨base, hbase, hrom⟩ := Flat.exists_of_codeOf_getElem? harray
  have hplaced := m.placement hbase
  rw [hrom] at hplaced
  obtain ⟨name', address, hname, haddress, hat⟩ := hplaced
  cases hname
  obtain ⟨lines, hlines⟩ : ∃ lines, (m.writing.opLines j op).lines = lines := ⟨_, rfl⟩
  have hwrites := Emission.writes_of_outcome hok
  rw [hlines] at hwrites ⊢
  rw [Writing.opLines_writes, hinstr] at hwrites
  obtain ⟨target, htarget, first, hfirst, rfl⟩ := hwrites
  obtain ⟨target', source, base', address', htarget', hsource, hbase', haddress', rfl⟩ :=
    Writing.elementAddress_writes.mp hfirst
  cases htarget.symm.trans htarget'
  cases hbase.symm.trans hbase'
  have hsame := Writing.offset_of_address hbase haddress'
  rw [hat] at hsame
  cases hsame
  refine ⟨target, source, address, Writing.offset_of_address hop htarget, hsource, haddress,
    fun p machine k hk => ?_⟩
  obtain ⟨after, hrun, hvalue⟩ := p.run_lookup machine target source address
  refine ⟨after, ?_, ?_⟩
  · rw [hrom]
    exact hrun
  · have hsum : BitVec.ofNat 18 k + BitVec.ofInt 18 address = BitVec.ofNat 18 (address + k) := by
      rw [BitVec.ofInt_natCast, ← BitVec.ofNat_add, Nat.add_comm]
    rw [hvalue, hk, hsum]

end Stages.Member

/-- **The tables are where the layout says just if they are as long as they say.**  Take a program
that compiles and whose globals have labels of their own.  The address of an array of constants
is the sum of the counts declared before it, but its words stand behind the values that were
written before it.  So the words of the constants block are those that the layout says, as many
as it counts and the values of each array at its address, just if every array has as many values
as it declares.  Then every read of an element of an array finds the value of the element. -/
theorem tables_agree_iff {model : Model.Program} (hok : (compile model).outcome = .ok ())
    (hlabels : model.LabelsApart) : ∃ c, build model = .ok c ∧
      (∀ before g after, tables model = before ++ g :: after →
        c.layout.addresses.find? g.1 = some (declared before) ∧
        ((constantWords (compile model).lines).drop (spelled before).length).take
          g.2.values.length = g.2.values) ∧
      (c.TablesAgree model (constantWords (compile model).lines) ↔
        ∀ g ∈ tables model, g.2.values.length = g.2.count.toNat) ∧
      (c.TablesAgree model (constantWords (compile model).lines) →
        ∀ label ∈ c.layout.order, ∃ f, c.program.find? label = some f ∧
          ∀ (j array index : Nat) (op : Op) (g : String × Symbol), f.body[j]? = some op →
            op.instruction = .element .rom array index →
            (codeOf f.body)[array]? = some (.rom (.globalVar g.1)) → g ∈ tables model →
            ∃ target source, op.offset = .absolute target ∧
              Writing.operand ⟨c.program, c.layout.addresses, f⟩ index = .ok source ∧
              ∀ (p : Processor) (machine : Machine) (k : Nat) (value : Int32),
                p.HoldsWords (constantWords (compile model).lines) →
                g.2.values[k]? = some value → machine.word source = BitVec.ofNat 18 k →
                ∃ after, p.run (Writing.opLines ⟨c.program, c.layout.addresses, f⟩ j op).lines
                    machine = some after ∧
                  after.registers target = BitVec.ofInt 18 value.toInt) := by
  obtain ⟨c, hbuild, hwritable, hwords⟩ := constantWords_compile hok
  obtain ⟨s⟩ := stages_of_build hbuild
  rw [hwords]
  refine ⟨c, hbuild, fun before g after hsplit => ?_, s.tablesAgree_iff hlabels, ?_⟩
  · refine ⟨s.table_address hlabels hsplit, ?_⟩
    rw [hsplit]
    exact take_spelled before after g
  · intro hagree label hlabel
    obtain ⟨f, hf, hlines⟩ := hwritable label hlabel
    rw [s.order_eq] at hlabel
    obtain ⟨m⟩ := s.exists_member hlabel
    rw [m.final_eq] at hf
    cases hf
    refine ⟨m.final, m.final_eq, fun j array index op g hop hinstr harray hg => ?_⟩
    obtain ⟨target, source, address, htarget, hsource, haddress, hreads⟩ :=
      m.element_reads hop hinstr harray (hlines j op hop)
    refine ⟨target, source, htarget, hsource, fun p machine k value hholds hvalue hk => ?_⟩
    obtain ⟨after, hrun, hafter⟩ := hreads p machine k hk
    refine ⟨after, hrun, hafter.trans (hholds (address + k) value ?_)⟩
    obtain ⟨address', haddress', htable⟩ := hagree.table g hg
    rw [haddress] at haddress'
    cases haddress'
    have hlt : k < g.2.count.toNat := by
      rw [← (s.tablesAgree_iff hlabels).mp hagree g hg]
      exact (List.getElem?_eq_some_iff.mp hvalue).1
    rw [← htable, List.getElem?_take_of_lt hlt, List.getElem?_drop] at hvalue
    exact hvalue

/-- A program with two arrays of constants, whose entry reads an element of the second. -/
def lookupBehind (first : Symbol) : Model.Program :=
  let entry : Model.Function :=
    ({ label := "demo.main" } : Model.Function).withBody
      [.assign (.var "demo.x") none (.index "demo.second" (.int 0))]
  let demo : Model.Module :=
    (((({} : Model.Module).addSymbol "first" first).addSymbol "second"
      (.constant .int [5, 6])).addSymbol "x" .word).addFunction entry
  { name := "demo", modules := Table.empty.insert "demo" demo }

/-- An array that declares one word more than it has. -/
def shortTable : Symbol :=
  { Symbol.constant .int [7, 8] with count := 3 }

theorem lookupBehind_compiles :
    (compile (lookupBehind (.constant .int [7, 8, 9]))).outcome = .ok () ∧
      (lookupBehind (.constant .int [7, 8, 9])).LabelsApart ∧
      (compile (lookupBehind shortTable)).outcome = .ok () ∧
      (lookupBehind shortTable).LabelsApart := by
  decide +kernel

/-- Behind an array with as many values as it declares the entry reads its 5. -/
theorem tables_agree_iff_lookupBehind : ∃ c f op target,
    build (lookupBehind (.constant .int [7, 8, 9])) = .ok c ∧
    c.program.find? "demo.main" = some f ∧ f.body[3]? = some op ∧
    op.offset = .absolute target ∧
    constantWords (compile (lookupBehind (.constant .int [7, 8, 9]))).lines = [7, 8, 9, 5, 6] ∧
    ∀ (p : Processor) (machine : Machine), p.HoldsWords [7, 8, 9, 5, 6] →
      ∃ after, p.run (Writing.opLines ⟨c.program, c.layout.addresses, f⟩ 3 op).lines machine =
          some after ∧ after.registers target = 5 := by
  have hcode : ((build (lookupBehind (.constant .int [7, 8, 9]))).toOption.bind fun c =>
      (c.program.find? "demo.main").map fun f =>
        (c.layout.order, (codeOf f.body)[3]?, (codeOf f.body)[1]?,
          (Writing.operand ⟨c.program, c.layout.addresses, f⟩ 2).toOption)) =
      some (["demo.main"], some (.element .rom 1 2), some (.rom (.globalVar "demo.second")),
        some (.immediate 0)) := by decide +kernel
  have hwords : constantWords (compile (lookupBehind (.constant .int [7, 8, 9]))).lines =
      [7, 8, 9, 5, 6] := by decide +kernel
  have hproper : ∀ g ∈ tables (lookupBehind (.constant .int [7, 8, 9])),
      g.2.values.length = g.2.count.toNat := by decide +kernel
  have htable : ("demo.second", Symbol.constant .int [5, 6]) ∈
      tables (lookupBehind (.constant .int [7, 8, 9])) := by decide +kernel
  obtain ⟨c, hc, hcode⟩ := Option.bind_eq_some_iff.mp hcode
  obtain ⟨f, hf, hcode⟩ := Option.map_eq_some_iff.mp hcode
  simp only [Prod.mk.injEq] at hcode
  obtain ⟨horder, helement, harray, hoperand⟩ := hcode
  obtain ⟨c', hbuild, _, hagree, hreads⟩ :=
    tables_agree_iff lookupBehind_compiles.1 lookupBehind_compiles.2.1
  rw [toOption_eq_some.mp hc] at hbuild
  cases hbuild
  obtain ⟨f', hf', hread⟩ := hreads (hagree.mpr hproper) "demo.main" (by simp [horder])
  rw [hf] at hf'
  cases hf'
  obtain ⟨op, hop, hinstr⟩ := Flat.exists_of_codeOf_getElem? helement
  obtain ⟨target, source, htarget, hsource, hrun⟩ := hread 3 1 2 op _ hop hinstr harray htable
  rw [toOption_eq_some.mp hoperand] at hsource
  cases hsource
  refine ⟨c, f, op, target, toOption_eq_some.mp hc, hf, hop, htarget, hwords, ?_⟩
  intro p machine hholds
  exact hrun p machine 0 5 (by rw [hwords]; exact hholds) rfl rfl

/-- **A table that is too short shifts the ones behind it.**  The layout counts five words, and
the output has four; the second table is said to be at 3, where its second value stands. -/
theorem short_table_shifts :
    (compile (lookupBehind shortTable)).outcome = .ok () ∧ (lookupBehind shortTable).LabelsApart ∧
      constantWords (compile (lookupBehind shortTable)).lines = [7, 8, 5, 6] ∧
      ∃ c, build (lookupBehind shortTable) = .ok c ∧ c.layout.constants = 5 ∧
        c.layout.addresses.find? "demo.second" = some 3 ∧
        ("demo.second", Symbol.constant .int [5, 6]) ∈ tables (lookupBehind shortTable) ∧
        (([7, 8, 5, 6] : List Int32).drop 3).take 2 ≠ [5, 6] := by
  have hlayout : (build (lookupBehind shortTable)).toOption.map (fun c =>
      (c.layout.constants, c.layout.addresses.find? "demo.second")) = some (5, some 3) := by
    decide +kernel
  obtain ⟨c, hc, hlayout⟩ := Option.map_eq_some_iff.mp hlayout
  obtain ⟨htotal, haddress⟩ := Prod.mk.inj hlayout
  exact ⟨lookupBehind_compiles.2.2.1, lookupBehind_compiles.2.2.2, by decide +kernel, c,
    toOption_eq_some.mp hc, htotal, haddress, by decide +kernel, by decide⟩

end Stackless
