import Stackless.Flat.Function
import Stackless.Text.Column

/-!
# Listings of flat functions

A listing has a header with the label and the two windows, and a line for every
instruction that was not taken out: index, kind, what the instruction names,
its operands, its offset in brackets and its last use in braces.
-/

namespace Stackless.Flat

open Model (MathOp CompareOp)

/-- The name of an operation in listings. -/
def mathTitle : MathOp → String
  | .add => "Add"
  | .sub => "Sub"
  | .mul => "Mul"
  | .div => "Div"
  | .mod => "Mod"
  | .shr => "Shr"
  | .shl => "Shl"
  | .neg => "Neg"
  | .and => "And"
  | .or => "Or"
  | .xor => "Xor"
  | .not => "Not"
  | .logicalAnd => "LogicalAnd"
  | .logicalOr => "LogicalOr"
  | .logicalNot => "LogicalNot"

/-- The name of a comparison in listings. -/
def compareTitle : CompareOp → String
  | .eq => "Eq"
  | .ne => "Ne"
  | .gt => "Gt"
  | .lt => "Lt"
  | .ge => "Ge"
  | .le => "Le"

namespace Instruction

/-- The kind of an instruction. -/
def kind : Instruction → String
  | .removed => "REMOVED"
  | .marker _ => "MARKER"
  | .jump _ => "JMP"
  | .branch true _ _ => "JMPT"
  | .branch false _ _ => "JMPF"
  | .compare _ .word _ _ => "COMPI"
  | .compare _ .bit _ _ => "COMPB"
  | .math _ .word _ _ => "MATHI"
  | .math _ .bit _ _ => "MATHB"
  | .assign _ .word _ _ => "ASSIGNI"
  | .assign _ .bit _ _ => "ASSIGNB"
  | .call _ _ => "CALL"
  | .parameter _ _ _ => "PARM"
  | .ret _ => "RETURN"
  | .timer _ => "TIMER"
  | .level _ => "LEVEL"
  | .halt => "HALT"
  | .pause => "PAUSE"
  | .reset => "RESET"
  | .restart => "RESTART"
  | .nop => "NOP"
  | .register _ => "REG"
  | .bit _ => "BIT"
  | .ram _ => "RAM"
  | .rom _ => "ROM"
  | .portIn _ => "IN"
  | .portOut _ => "OUT"
  | .element _ _ _ => "INDEX"
  | .address _ _ => "ADDRESS"
  | .bool _ => "BCON"
  | .int _ => "ICON"

/-- What an instruction names besides other instructions. -/
def detail? : Instruction → Option String
  | .marker name => some name
  | .jump target => some target.marker
  | .branch _ _ target => some target.marker
  | .compare op _ _ _ => some (compareTitle op)
  | .math op _ _ _ => some (mathTitle op)
  | .assign op _ _ _ => op.map mathTitle
  | .call function _ => some function
  | .parameter function name _ => some (function ++ "." ++ name)
  | .level n => some (toString n.toInt)
  | .register var => some var.text
  | .bit var => some var.text
  | .ram var => some var.text
  | .rom var => some var.text
  | .portIn var => some var.text
  | .portOut var => some var.text
  | .bool value => some (if value then "true" else "false")
  | .int value => some (toString value.toInt)
  | _ => none

end Instruction

/-- The operands of a line, numbered from the given number. -/
def operandText : Nat → List Nat → String
  | _, [] => ""
  | n, r :: rest => " p" ++ toString n ++ "=" ++ toString r ++ operandText (n + 1) rest

/-- The line of an op. -/
def Op.line (index : Nat) (op : Op) : String :=
  let detail := match op.instruction.detail? with
    | some detail => " " ++ detail
    | none => ""
  let last := match op.lastUse with
    | some last => " \x7b" ++ toString last ++ "\x7d"
    | none => ""
  Text.alignRight 3 (toString index) ++ " " ++ op.instruction.kind ++ " >" ++ detail
    ++ operandText 1 op.instruction.operands ++ " [" ++ op.offset.text ++ "]" ++ last ++ "\n"

/-- The two windows of a function, each as base and count. -/
def Function.windowText (f : Function) : String :=
  toString f.registers.base ++ " " ++ toString f.registers.count ++ ", "
    ++ toString f.bits.base ++ " " ++ toString f.bits.count

/-- The listing of a function. -/
def Function.listing (f : Function) : String :=
  let lines := f.body.zipIdx.filterMap fun (op, index) =>
    if op.instruction.isRemoved then none else some (op.line index)
  "; " ++ f.label ++ ", " ++ f.windowText ++ "\n" ++ String.join lines

end Stackless.Flat
