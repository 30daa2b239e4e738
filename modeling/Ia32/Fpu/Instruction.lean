import Ia32.Exec.Operand
import Ia32.Float.Operation

/-!
# Floating-point instructions

Eight escape opcodes, numbered zero to seven, lead to the floating-point
instructions.  The mode byte after the opcode selects one of them: its middle
field alone when the operand is in memory, the whole byte otherwise.
-/

namespace Ia32

/-! ## Numbers in memory -/

/-- A floating-point format of memory. -/
inductive RealFormat where
  /-- Thirty-two bits. -/
  | single
  /-- Sixty-four bits. -/
  | double
  /-- Eighty bits. -/
  | extended
deriving DecidableEq, Repr

/-- An integer format of memory. -/
inductive IntFormat where
  /-- Sixteen bits. -/
  | word
  /-- Thirty-two bits. -/
  | dword
  /-- Sixty-four bits. -/
  | qword
deriving DecidableEq, Repr

/-- A format of memory. -/
inductive NumberFormat where
  /-- A floating-point number. -/
  | real (format : RealFormat)
  /-- An integer. -/
  | int (format : IntFormat)
deriving DecidableEq, Repr

/-- The size of a floating-point format in bytes. -/
def RealFormat.bytes : RealFormat → Nat
  | .single => 4
  | .double => 8
  | .extended => 10

/-- The size of an integer format in bytes. -/
def IntFormat.bytes : IntFormat → Nat
  | .word => 2
  | .dword => 4
  | .qword => 8

/-- The least integer of a format, which also stands for numbers that are none. -/
def IntFormat.least (format : IntFormat) : Int := -Int.pow 2 (8 * format.bytes - 1)

/-- Whether an integer fits a format. -/
def IntFormat.fits (format : IntFormat) (n : Int) : Bool :=
  format.least ≤ n && n < -format.least

/-- The size of a format in bytes. -/
def NumberFormat.bytes : NumberFormat → Nat
  | .real format => format.bytes
  | .int format => format.bytes

/-! ## The instructions -/

/-- A constant that can be loaded. -/
inductive Constant where
  /-- One. -/
  | one
  /-- The logarithm of ten to base two. -/
  | log2Ten
  /-- The logarithm of Euler's number to base two. -/
  | log2E
  /-- The ratio of a circle's circumference to its diameter. -/
  | pi
  /-- The logarithm of two to base ten. -/
  | log10Two
  /-- The natural logarithm of two. -/
  | lnTwo
  /-- Zero. -/
  | zero
deriving DecidableEq, Repr

/-- The number that a constant stands for. -/
def Constant.value : Constant → Extended
  | .one => .one
  | .log2Ten => .log2Ten
  | .log2E => .log2E
  | .pi => .pi
  | .log10Two => .log10Two
  | .lnTwo => .lnTwo
  | .zero => .zero false

/-- A floating-point instruction. -/
inductive FloatInstruction where
  /-- Arithmetic on the top register and a number in memory. -/
  | arithMemory (op : FloatOp) (format : NumberFormat)
  /-- Arithmetic on the top register and another one. -/
  | arithTop (op : FloatOp) (i : Nat)
  /-- Arithmetic on a register and the top one, which may then be popped. -/
  | arithInto (op : FloatOp) (i : Nat) (pops : Bool)
  /-- Compares the top register with a number in memory. -/
  | compareMemory (format : NumberFormat) (pops : Bool)
  /-- Compares the top register with another one and pops some. -/
  | compare (i pops : Nat)
  /-- Compares the top register with zero. -/
  | test
  /-- Classifies the top register. -/
  | examine
  /-- Changes the sign. -/
  | neg
  /-- Clears the sign. -/
  | abs
  /-- The square root. -/
  | sqrt
  /-- Rounds to an integral number. -/
  | roundToIntegral
  /-- Scales by the register below the top. -/
  | scale
  /-- A step of the division by the register below the top. -/
  | remainder
  /-- Two to the power of the top register, less one. -/
  | powerLessOne
  /-- A function of an angle. -/
  | trig (f : Trig)
  /-- The product of the register below the top and the logarithm of the top one. -/
  | timesLogarithm
  /-- The angle of the point in the two top registers. -/
  | angle
  /-- Does nothing. -/
  | nothing
  /-- Pushes a number from memory. -/
  | load (format : NumberFormat)
  /-- Pushes a copy of a register. -/
  | loadRegister (i : Nat)
  /-- Pushes a constant. -/
  | loadConstant (c : Constant)
  /-- Stores the top register as a floating-point number. -/
  | storeReal (format : RealFormat) (pops : Bool)
  /-- Stores the top register as an integer. -/
  | storeInt (format : IntFormat) (pops : Bool)
  /-- Stores the top register as a packed decimal and pops it. -/
  | storeDecimal
  /-- Copies the top register to another one. -/
  | storeRegister (i : Nat) (pops : Bool)
  /-- Exchanges the top register with another one. -/
  | exchange (i : Nat)
  /-- Empties a register. -/
  | free (i : Nat)
  /-- Loads the control word. -/
  | loadControl
  /-- Stores the control word. -/
  | storeControl
  /-- Stores the status word in memory. -/
  | storeStatus
  /-- Copies the status word to the accumulator. -/
  | statusToAccumulator
  /-- Saves the state and reinitializes it. -/
  | save
  /-- Restores a saved state. -/
  | restore
  /-- Initializes the state. -/
  | initState
  /-- Clears the exceptions. -/
  | clearExceptions
deriving DecidableEq, Repr

namespace FloatInstruction

/-- Whether an instruction controls the unit and computes nothing.  The pointers to the last
instruction do not follow these. -/
def isControl : FloatInstruction → Bool
  | .loadControl | .storeControl | .storeStatus | .statusToAccumulator | .save | .restore
  | .initState | .clearExceptions => true
  | _ => false

/-! ## Decoding -/

/-- A feature that is missing. -/
def missing (feature : Feature) : Except Fault FloatInstruction := .error (.unimplemented feature)

/-- An encoding that is no instruction. -/
def undefined : Except Fault FloatInstruction := .error .invalidOpcode

/-- The memory forms of arithmetic and comparison. -/
def ofArithMemory (reg : BitVec 3) (format : NumberFormat) : FloatInstruction :=
  match FloatOp.ofBits? reg with
  | some op => .arithMemory op format
  | none => .compareMemory format (reg = 3)

/-- The memory forms of escape one: 32-bit numbers and the control words. -/
def ofMemory1 (reg : BitVec 3) : Except Fault FloatInstruction :=
  match reg.toNat with
  | 0 => .ok (.load (.real .single))
  | 2 => .ok (.storeReal .single false)
  | 3 => .ok (.storeReal .single true)
  | 4 => missing .fldenv
  | 5 => .ok .loadControl
  | 6 => missing .fnstenv
  | 7 => .ok .storeControl
  | _ => undefined

/-- The memory forms of escape three: 32-bit integers and 80-bit numbers. -/
def ofMemory3 (reg : BitVec 3) : Except Fault FloatInstruction :=
  match reg.toNat with
  | 0 => .ok (.load (.int .dword))
  | 2 => .ok (.storeInt .dword false)
  | 3 => .ok (.storeInt .dword true)
  | 5 => .ok (.load (.real .extended))
  | 7 => .ok (.storeReal .extended true)
  | _ => undefined

/-- The memory forms of escape five: 64-bit numbers and the whole state. -/
def ofMemory5 (reg : BitVec 3) : Except Fault FloatInstruction :=
  match reg.toNat with
  | 0 => .ok (.load (.real .double))
  | 2 => .ok (.storeReal .double false)
  | 3 => .ok (.storeReal .double true)
  | 4 => .ok .restore
  | 6 => .ok .save
  | 7 => .ok .storeStatus
  | _ => undefined

/-- The memory forms of escape seven: 16-bit and 64-bit integers and packed decimals. -/
def ofMemory7 (reg : BitVec 3) : Except Fault FloatInstruction :=
  match reg.toNat with
  | 0 => .ok (.load (.int .word))
  | 2 => .ok (.storeInt .word false)
  | 3 => .ok (.storeInt .word true)
  | 4 => missing .fbld
  | 5 => .ok (.load (.int .qword))
  | 6 => .ok .storeDecimal
  | 7 => .ok (.storeInt .qword true)
  | _ => undefined

/-- The memory form of an escape opcode. -/
def ofMemory (escape reg : BitVec 3) : Except Fault FloatInstruction :=
  match escape.toNat with
  | 0 => .ok (ofArithMemory reg (.real .single))
  | 1 => ofMemory1 reg
  | 2 => .ok (ofArithMemory reg (.int .dword))
  | 3 => ofMemory3 reg
  | 4 => .ok (ofArithMemory reg (.real .double))
  | 5 => ofMemory5 reg
  | 6 => .ok (ofArithMemory reg (.int .word))
  | _ => ofMemory7 reg

/-- Signs and classes of the top register. -/
def ofSignGroup (rm : BitVec 3) : Except Fault FloatInstruction :=
  match rm.toNat with
  | 0 => .ok .neg
  | 1 => .ok .abs
  | 4 => .ok .test
  | 5 => .ok .examine
  | _ => undefined

/-- Constants. -/
def ofConstantGroup (rm : BitVec 3) : Except Fault FloatInstruction :=
  match rm.toNat with
  | 0 => .ok (.loadConstant .one)
  | 1 => .ok (.loadConstant .log2Ten)
  | 2 => .ok (.loadConstant .log2E)
  | 3 => .ok (.loadConstant .pi)
  | 4 => .ok (.loadConstant .log10Two)
  | 5 => .ok (.loadConstant .lnTwo)
  | 6 => .ok (.loadConstant .zero)
  | _ => undefined

/-- Elementary functions. -/
def ofFunctionGroup (rm : BitVec 3) : Except Fault FloatInstruction :=
  match rm.toNat with
  | 0 => .ok .powerLessOne
  | 1 => .ok .timesLogarithm
  | 2 => .ok (.trig .tan)
  | 3 => .ok .angle
  | 4 => missing .fxtract
  | 5 => missing .fprem1
  | _ => missing .stackRotation

/-- Remainder, root, rounding, scaling and functions of an angle. -/
def ofRootGroup (rm : BitVec 3) : Except Fault FloatInstruction :=
  match rm.toNat with
  | 0 => .ok .remainder
  | 1 => missing .fyl2xp1
  | 2 => .ok .sqrt
  | 3 => missing .fsincos
  | 4 => .ok .roundToIntegral
  | 5 => .ok .scale
  | 6 => .ok (.trig .sin)
  | _ => .ok (.trig .cos)

/-- The register forms of escape one. -/
def ofRegister1 (reg rm : BitVec 3) : Except Fault FloatInstruction :=
  match reg.toNat with
  | 0 => .ok (.loadRegister rm.toNat)
  | 1 => .ok (.exchange rm.toNat)
  | 2 => if rm = 0 then .ok .nothing else undefined
  | 3 => missing .d9StoreAlias
  | 4 => ofSignGroup rm
  | 5 => ofConstantGroup rm
  | 6 => ofFunctionGroup rm
  | _ => ofRootGroup rm

/-- The register forms of escape three. -/
def ofRegister3 (reg rm : BitVec 3) : Except Fault FloatInstruction :=
  if reg = 4 ∧ rm = 2 then .ok .clearExceptions
  else if reg = 4 ∧ rm = 3 then .ok .initState
  else missing .dbRegister

/-- The register forms of escape five. -/
def ofRegister5 (reg rm : BitVec 3) : Except Fault FloatInstruction :=
  match reg.toNat with
  | 0 => .ok (.free rm.toNat)
  | 1 => missing .ddExchangeAlias
  | 2 => .ok (.storeRegister rm.toNat false)
  | 3 => .ok (.storeRegister rm.toNat true)
  | 4 | 5 => missing .fucom
  | _ => undefined

/-- The register forms of escape six.  Of the comparisons there is only the one that pops
twice. -/
def ofRegister6 (reg rm : BitVec 3) : Except Fault FloatInstruction :=
  match FloatOp.ofBits? reg with
  | some op => .ok (.arithInto op.swapped rm.toNat true)
  | none => if reg = 3 ∧ rm = 1 then .ok (.compare 1 2) else missing .deCompareAlias

/-- The register form of an escape opcode. -/
def ofRegister (escape reg rm : BitVec 3) : Except Fault FloatInstruction :=
  match escape.toNat with
  | 0 =>
    match FloatOp.ofBits? reg with
    | some op => .ok (.arithTop op rm.toNat)
    | none => .ok (.compare rm.toNat (reg.toNat - 2))
  | 1 => ofRegister1 reg rm
  | 2 => missing .fcmov
  | 3 => ofRegister3 reg rm
  | 4 =>
    match FloatOp.ofBits? reg with
    | some op => .ok (.arithInto op.swapped rm.toNat false)
    | none => missing .dcCompareAlias
  | 5 => ofRegister5 reg rm
  | 6 => ofRegister6 reg rm
  | _ => if reg = 4 ∧ rm = 0 then .ok .statusToAccumulator else missing .dfRegister

/-- The instruction that an escape opcode and a mode byte select. -/
def decode (escape : BitVec 3) (m : ModeByte) : Except Fault FloatInstruction :=
  if m.isRegister then ofRegister escape m.reg m.rm else ofMemory escape m.reg

end FloatInstruction

end Ia32
