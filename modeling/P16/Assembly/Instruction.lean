import P16.Assembly.Operand

/-!
# Instructions and lines

Basic instructions take two operands, special ones take one, and data takes any number of words.
-/

namespace P16

inductive BasicOpcode where
  | set | add | sub | mul | mli | div | dvi | mod | mdi | and | bor | xor | shr | asr | shl
  | ifb | ifc | ife | ifn | ifg | ifa | ifl | ifu | adx | sbx | sti | std
deriving DecidableEq, Inhabited

namespace BasicOpcode

def all : List BasicOpcode :=
  [set, add, sub, mul, mli, div, dvi, mod, mdi, and, bor, xor, shr, asr, shl,
   ifb, ifc, ife, ifn, ifg, ifa, ifl, ifu, adx, sbx, sti, std]

def mnemonic : BasicOpcode → String
  | set => "SET"
  | add => "ADD"
  | sub => "SUB"
  | mul => "MUL"
  | mli => "MLI"
  | div => "DIV"
  | dvi => "DVI"
  | mod => "MOD"
  | mdi => "MDI"
  | and => "AND"
  | bor => "BOR"
  | xor => "XOR"
  | shr => "SHR"
  | asr => "ASR"
  | shl => "SHL"
  | ifb => "IFB"
  | ifc => "IFC"
  | ife => "IFE"
  | ifn => "IFN"
  | ifg => "IFG"
  | ifa => "IFA"
  | ifl => "IFL"
  | ifu => "IFU"
  | adx => "ADX"
  | sbx => "SBX"
  | sti => "STI"
  | std => "STD"

end BasicOpcode

inductive SpecialOpcode where
  | jsr | int | iag | ias | rfi | iaq | hwn | hwq | hwi
deriving DecidableEq, Inhabited

namespace SpecialOpcode

def all : List SpecialOpcode := [jsr, int, iag, ias, rfi, iaq, hwn, hwq, hwi]

def mnemonic : SpecialOpcode → String
  | jsr => "JSR"
  | int => "INT"
  | iag => "IAG"
  | ias => "IAS"
  | rfi => "RFI"
  | iaq => "IAQ"
  | hwn => "HWN"
  | hwq => "HWQ"
  | hwi => "HWI"

end SpecialOpcode

inductive Opcode where
  | basic (op : BasicOpcode)
  | special (op : SpecialOpcode)
  | data
deriving DecidableEq, Inhabited

inductive OperandCountFault where
  | takesOne (op : Opcode)
  | takesTwo (op : Opcode)
deriving DecidableEq

namespace Opcode

def all : List Opcode :=
  BasicOpcode.all.map basic ++ SpecialOpcode.all.map special ++ [data]

def mnemonic : Opcode → String
  | basic op => op.mnemonic
  | special op => op.mnemonic
  | data => "DAT"

def ofMnemonic? (mnemonic : String) : Option Opcode :=
  all.find? fun op => op.mnemonic = mnemonic

def isSpecial : Opcode → Bool
  | special _ => true
  | _ => false

def toBasic : Opcode → Except OperandCountFault BasicOpcode
  | basic op => .ok op
  | op => .error (.takesOne op)

def toSpecial : Opcode → Except OperandCountFault SpecialOpcode
  | special op => .ok op
  | op => .error (.takesTwo op)

end Opcode

def OperandCountFault.message : OperandCountFault → String
  | takesOne op => op.mnemonic ++ " takes one operand"
  | takesTwo op => op.mnemonic ++ " takes two operands"

inductive Instruction where
  | basic (op : BasicOpcode) (target source : Operand)
  | special (op : SpecialOpcode) (operand : Operand)
  | data (words : List Operand)
deriving DecidableEq, Inhabited

namespace Instruction

def opcode : Instruction → Opcode
  | basic op _ _ => .basic op
  | special op _ => .special op
  | data _ => .data

def operands : Instruction → List Operand
  | basic _ target source => [target, source]
  | special _ operand => [operand]
  | data words => words

def render (instruction : Instruction) : String :=
  match instruction.operands with
  | [] => instruction.opcode.mnemonic
  | first :: rest =>
    instruction.opcode.mnemonic ++ " " ++ ", ".intercalate ((first :: rest).map Operand.render)

end Instruction

inductive Line where
  | label (name : String)
  | instruction (instruction : Instruction)
deriving DecidableEq, Inhabited

def Line.render : Line → String
  | label name => ":" ++ name
  | instruction i => i.render

end P16
