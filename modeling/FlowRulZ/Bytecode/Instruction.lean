import Mathlib.Data.Nat.Bitwise

/-! # Instructions

Eight-byte instructions: an opcode, a byte of flags and three 16-bit operands.
Timeouts and delays are 64-bit numbers of which the low 32 bits are kept, the high
half in `b` and the low half in `c`.
-/

namespace FlowRulZ

inductive OpCode where
  | next
  | parallel
  | collect
  | fallback
  | gate
  | map
  | emit
  | drop
  | buffer
  | key
  | async
  | chunk
  | dag
  | jmp
  | label
  | svcArg
  | jumpOffset
  | typeGuard
  | svcCall
  | delay
  deriving Repr, DecidableEq

inductive GateOp where
  | eq
  | ne
  | gt
  | lt
  | gte
  | lte
  | contains
  deriving Repr, DecidableEq

namespace GateOp

def parse : String → Option GateOp
  | "==" => some .eq
  | "!=" => some .ne
  | ">" => some .gt
  | "<" => some .lt
  | ">=" => some .gte
  | "<=" => some .lte
  | "contains" => some .contains
  | _ => none

def toU8 : GateOp → UInt8
  | .eq => 0
  | .ne => 1
  | .gt => 2
  | .lt => 3
  | .gte => 4
  | .lte => 5
  | .contains => 6

end GateOp

inductive ChunkMode where
  | sequential
  | parallel
  deriving Repr, DecidableEq

def ChunkMode.toU8 : ChunkMode → UInt8
  | .sequential => 0
  | .parallel => 1

inductive RetryStrategy where
  | exponential
  | linear
  | fixed
  deriving Repr, DecidableEq

structure Instruction where
  op : OpCode
  flags : UInt8
  a : UInt16
  b : UInt16
  c : UInt16
  deriving Repr, DecidableEq

namespace Instruction

/-- The two operands that hold the low 32 bits of a 64-bit number. -/
def hi (ms : UInt64) : UInt16 := (ms >>> 16).toUInt16

@[inherit_doc hi]
def lo (ms : UInt64) : UInt16 := (ms &&& 0xFFFF).toUInt16

def next (targetId : UInt16) (timeoutMs : UInt64) : Instruction :=
  ⟨.next, 0, targetId, hi timeoutMs, lo timeoutMs⟩

def parallel (count : UInt8) (firstSvc : UInt16) : Instruction :=
  ⟨.parallel, 0, count.toUInt16, firstSvc, 0⟩

def collect : Instruction := ⟨.collect, 0, 0, 0, 0⟩

def fallback (targetId : UInt16) : Instruction := ⟨.fallback, 0, targetId, 0, 0⟩

def gate (fieldConst : UInt16) (gateOp : UInt8) (valueConst : UInt16) : Instruction :=
  ⟨.gate, gateOp, fieldConst, valueConst, 0⟩

def jmp (ipOffset : UInt16) : Instruction := ⟨.jmp, 0, ipOffset, 0, 0⟩

def label : Instruction := ⟨.label, 0, 0, 0, 0⟩

def svcArg (svcId : UInt16) : Instruction := ⟨.svcArg, 0, svcId, 0, 0⟩

def jumpOffset (offset : UInt16) : Instruction := ⟨.jumpOffset, 0, offset, 0, 0⟩

def emit (count : UInt8) (firstSvc : UInt16) : Instruction :=
  ⟨.emit, 0, count.toUInt16, firstSvc, 0⟩

def map (exprId : UInt16) : Instruction := ⟨.map, 0, exprId, 0, 0⟩

def setKey (fieldConst : UInt16) : Instruction := ⟨.key, 0, fieldConst, 0, 0⟩

def chunk (count mode : UInt8) : Instruction :=
  ⟨.chunk, 0, count.toUInt16, mode.toUInt16, 0⟩

def drop : Instruction := ⟨.drop, 0, 0, 0, 0⟩

def buffer (n : UInt8) : Instruction := ⟨.buffer, 0, n.toUInt16, 0, 0⟩

def asyncSvc (targetId : UInt16) (timeoutMs : UInt64) : Instruction :=
  ⟨.async, 0, targetId, hi timeoutMs, lo timeoutMs⟩

def dag (dagTableId : UInt16) : Instruction := ⟨.dag, 0, dagTableId, 0, 0⟩

def typeGuard (strict : UInt8) : Instruction := ⟨.typeGuard, 0, strict.toUInt16, 0, 0⟩

def delay (ms : UInt64) : Instruction := ⟨.delay, 0, 0, hi ms, lo ms⟩

def delayMs (i : Instruction) : UInt64 := (i.b.toUInt64 <<< 16) ||| i.c.toUInt64

def hasRetry (i : Instruction) : Bool := i.flags &&& 0x01 != 0

def timeoutMs (i : Instruction) : UInt64 := (i.b.toUInt64 <<< 16) ||| i.c.toUInt64

end Instruction

end FlowRulZ
