import Ia32.Text.Hex
import Ia32.Word

/-!
# Faults

A fault ends an instruction.  Most faults are delivered to the program through a
vector, some of them with an error code.  `unimplemented` is no fault of the
program: it says that the interpreter lacks a feature, and a host stops on it.
-/

namespace Ia32

/-- A feature that the interpreter or its host lacks. -/
inductive Feature where
  /-- Pushes and pops of segment registers. -/
  | segmentPush
  /-- Decimal adjustment. -/
  | decimalAdjust
  /-- Bound and privilege adjustment checks. -/
  | boundArpl
  /-- Exchange, move and address loads. -/
  | exchangeMove
  /-- Exchange with the accumulator and sign extension of it. -/
  | exchangeConvert
  /-- Transfers of the flags register. -/
  | flagTransfer
  /-- Moves to and from the accumulator, and string moves. -/
  | stringMove
  /-- Moves of immediates. -/
  | moveImmediate
  /-- Far pointer loads and stack frames. -/
  | pointerFrame
  /-- Software interrupts. -/
  | interrupt
  /-- Decimal adjustment of products, and table lookup. -/
  | adjustLookup
  /-- The one-byte breakpoint. -/
  | icebp
  /-- Halting. -/
  | halt
  /-- Changes of the interrupt flag. -/
  | interruptFlag
  /-- Another one-byte opcode. -/
  | oneByteOpcode
  /-- A two-byte opcode. -/
  | twoByteOpcode
  /-- Loading the floating-point environment. -/
  | fldenv
  /-- Storing the floating-point environment. -/
  | fnstenv
  /-- Loading packed decimals. -/
  | fbld
  /-- Conditional floating-point moves. -/
  | fcmov
  /-- Register forms of the fourth escape opcode. -/
  | dbRegister
  /-- Second encodings of the comparisons. -/
  | dcCompareAlias
  /-- Unordered comparisons. -/
  | fucom
  /-- A second encoding of the exchange. -/
  | ddExchangeAlias
  /-- Third encodings of the comparisons. -/
  | deCompareAlias
  /-- Register forms of the last escape opcode. -/
  | dfRegister
  /-- Extraction of exponent and significand. -/
  | fxtract
  /-- The remainder of the nearest quotient. -/
  | fprem1
  /-- Rotation of the register stack. -/
  | stackRotation
  /-- The logarithm near one. -/
  | fyl2xp1
  /-- Sine and cosine at once. -/
  | fsincos
  /-- A second encoding of the store. -/
  | d9StoreAlias
  /-- Saving the floating-point state in another layout. -/
  | fsaveLayout
  /-- Restoring the floating-point state from another layout. -/
  | frstorLayout
  /-- Delivery of a floating-point exception. -/
  | pendingException
  /-- A task switch through a task gate. -/
  | taskGate
  /-- A task switch through the descriptor of a task state segment. -/
  | taskState
  /-- Stacks in a 16-bit task state segment. -/
  | tss16Stack
  /-- A feature named by the host. -/
  | named (name : String)
deriving DecidableEq, Repr

/-- The name of a feature, as messages show it. -/
def Feature.name : Feature → String
  | .segmentPush => "segment register PUSH/POP"
  | .decimalAdjust => "decimal adjust"
  | .boundArpl => "BOUND/ARPL"
  | .exchangeMove => "XCHG/MOV/LEA"
  | .exchangeConvert => "XCHG/NOP/CBW/CWD"
  | .flagTransfer => "PUSHF/POPF/SAHF/LAHF"
  | .stringMove => "MOV/MOVS/STOS/LODS"
  | .moveImmediate => "MOV imm"
  | .pointerFrame => "LES/LDS/MOV imm/ENTER/LEAVE"
  | .interrupt => "INT/INTO/IRET"
  | .adjustLookup => "AAM/AAD/SALC/XLAT"
  | .icebp => "ICEBP"
  | .halt => "HLT"
  | .interruptFlag => "CLI/STI"
  | .oneByteOpcode => "one-byte opcode outside the supported subset"
  | .twoByteOpcode => "two-byte opcode outside the supported subset"
  | .fldenv => "FLDENV"
  | .fnstenv => "FNSTENV"
  | .fbld => "FBLD"
  | .fcmov => "FCMOVcc/FUCOMPP"
  | .dbRegister => "DB register form"
  | .dcCompareAlias => "DC D0..DF compare alias"
  | .fucom => "FUCOM/FUCOMP"
  | .ddExchangeAlias => "DD C8..CF exchange alias"
  | .deCompareAlias => "DE compare alias"
  | .dfRegister => "DF register form"
  | .fxtract => "FXTRACT"
  | .fprem1 => "FPREM1"
  | .stackRotation => "FDECSTP/FINCSTP"
  | .fyl2xp1 => "FYL2XP1"
  | .fsincos => "FSINCOS"
  | .d9StoreAlias => "D9 D8..DF store alias"
  | .fsaveLayout => "FSAVE outside 32-bit protected mode"
  | .frstorLayout => "FRSTOR outside 32-bit protected mode"
  | .pendingException => "delivery of a pending x87 exception"
  | .taskGate => "task switch through a task gate"
  | .taskState => "task switch through a TSS descriptor"
  | .tss16Stack => "stack switch through a 16-bit TSS"
  | .named name => name

/-- What ends an instruction. -/
inductive Fault where
  /-- A quotient that does not exist or does not fit. -/
  | divideError
  /-- An encoding that is no instruction. -/
  | invalidOpcode
  /-- The floating-point unit is not there, or belongs to another task. -/
  | deviceNotAvailable
  /-- A task state segment that cannot be used. -/
  | invalidTss (code : Word)
  /-- A descriptor that is not present. -/
  | segmentNotPresent (code : Word)
  /-- A stack access out of bounds, or a stack segment that is not present. -/
  | stackFault (code : Word)
  /-- Any other violation of protection. -/
  | generalProtection (code : Word)
  /-- An access that the host refuses. -/
  | pageFault (linear code : Dword)
  /-- A missing feature. -/
  | unimplemented (feature : Feature)
deriving DecidableEq, Repr

namespace Fault

/-! ## Error codes of selectors -/

/-- The error code that names a selector: its index and table bit. -/
def selectorCode (selector : Word) : Word := selector &&& 0xFFFC

/-- A protection violation that names a selector. -/
def protectionAt (selector : Word) : Fault := .generalProtection (selectorCode selector)

/-- An absent segment, named by its selector. -/
def notPresentAt (selector : Word) : Fault := .segmentNotPresent (selectorCode selector)

/-- A stack fault that names a selector. -/
def stackAt (selector : Word) : Fault := .stackFault (selectorCode selector)

/-- An unusable task state segment, or an unusable selector in one. -/
def invalidTssAt (selector : Word) : Fault := .invalidTss (selectorCode selector)

/-! ## Delivery -/

/-- The vector a fault is delivered through. -/
def vector? : Fault → Option Nat
  | .divideError => some 0
  | .invalidOpcode => some 6
  | .deviceNotAvailable => some 7
  | .invalidTss _ => some 10
  | .segmentNotPresent _ => some 11
  | .stackFault _ => some 12
  | .generalProtection _ => some 13
  | .pageFault _ _ => some 14
  | .unimplemented _ => none

/-- The error code that is pushed on delivery. -/
def errorCode? : Fault → Option Nat
  | .invalidTss code | .segmentNotPresent code | .stackFault code | .generalProtection code =>
    some code.toNat
  | .pageFault _ code => some code.toNat
  | _ => none

/-- Whether a fault belongs to the architecture. -/
def isArchitectural : Fault → Bool
  | .unimplemented _ => false
  | _ => true

/-! ## Text -/

/-- A sentence with an error code of four digits. -/
def messageWithCode (text : String) (code : Word) : String :=
  s!"{text} (error code 0x{Hex.upper 4 code.toNat})"

/-- The text of a fault. -/
def message : Fault → String
  | .divideError => "#DE divide error"
  | .invalidOpcode => "#UD invalid opcode"
  | .deviceNotAvailable => "#NM device not available"
  | .invalidTss code => messageWithCode "#TS invalid TSS" code
  | .segmentNotPresent code => messageWithCode "#NP segment not present" code
  | .stackFault code => messageWithCode "#SS stack fault" code
  | .generalProtection code => messageWithCode "#GP general protection" code
  | .pageFault linear code =>
    let address := Hex.upper 8 linear.toNat
    let digits := Hex.upper 1 code.toNat
    s!"#PF page fault at 0x{address} (error code 0x{digits})"
  | .unimplemented feature => s!"not implemented: {feature.name}"

end Fault

end Ia32
