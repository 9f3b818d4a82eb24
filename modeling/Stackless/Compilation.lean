import Stackless.Assembly.Emit
import Stackless.Flat.Flatten
import Stackless.Flat.Simplify

/-!
# The compiler

All phases work on the whole program, one after the other:

1. every function is flattened;
2. every flat function is simplified;
3. the call trees of the entry and of the interrupt handlers are unfolded, and
   recursion is refused;
4. every function that can be reached, and every global, gets its storage.

Then the assembly can be written.  A failure of any phase is the failure of the
whole compilation.
-/

namespace Stackless

/-- A program that is ready to be written. -/
structure Compilation where
  program : Flat.Program
  forest : Calls.Forest
  layout : Storage.Layout

/-- All phases up to the allocation of storage. -/
def build (model : Model.Program) : Except Failure Compilation := do
  let program ← orFail (Flat.Program.ofModel model)
  let program ← program.simplify
  let forest ← orFail (Calls.Forest.build model program)
  let (program, layout) ← Storage.allocate model program forest
  return { program, forest, layout }

namespace Compilation

/-- Writes the assembly of a compiled program. -/
def emit (c : Compilation) (model : Model.Program) : Assembly.Emission Unit :=
  Assembly.emit model c.program c.layout

/-- The listings of the functions that can be reached, in the order of
allocation. -/
def listing (c : Compilation) : String :=
  String.join ((c.layout.order.filterMap c.program.find?).map Flat.Function.listing)

/-- The call trees as text. -/
def outline (c : Compilation) : String :=
  c.forest.outline c.program

end Compilation

/-- Compiles a program: the assembly written, and how that ended. -/
def compile (model : Model.Program) : Assembly.Emission Unit :=
  (Assembly.Emission.silent (build model)).andThen fun c => c.emit model

end Stackless
