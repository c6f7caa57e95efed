import CodeAtlas.Machine.Naming
import CodeAtlas.Machine.Operation

/-!
# Mnemonics

A mnemonic is an instruction with its operands and its condition left out.  The catalogue
`Mnemonic.all` lists every mnemonic once, sorted by theme; a mnemonic's place in it is its index.
-/

namespace CodeAtlas

/-- An instruction without its operands. -/
inductive Mnemonic where
  | plain (op : PlainOp)
  | unary (op : UnaryOp)
  | binary (op : BinaryOp)
  | imul
  | doubleShift (op : DoubleShift)
  | cmovcc
  | setcc
  | jcc
  | bswap
  | lea
  | address (op : AddressOp)
deriving DecidableEq

namespace Mnemonic

/-- The lower case name. -/
def name : Mnemonic → String
  | plain op => op.name
  | unary op => op.name
  | binary op => op.name
  | imul => "imul"
  | doubleShift op => op.name
  | cmovcc => "cmovcc"
  | setcc => "setcc"
  | jcc => "jcc"
  | bswap => "bswap"
  | lea => "lea"
  | address op => op.name

/-- Arithmetic, logic, shifts and bit operations. -/
def arithmetic : List Mnemonic :=
  [binary .add, binary .or, binary .adc, binary .sbb, binary .and, binary .sub, binary .xor,
   binary .cmp, binary .test, unary .inc, unary .dec, unary .neg, unary .not, imul, unary .imulAcc,
   unary .mul, unary .div, unary .idiv, plain .daa, plain .das, plain .aaa, plain .aas,
   binary .rol, binary .ror, binary .rcl, binary .rcr, binary .shl, binary .shr, binary .sar,
   doubleShift .shld, doubleShift .shrd, binary .bt, binary .bts, binary .btr, binary .btc,
   binary .bsf, binary .bsr, bswap]

/-- Data movement, the stack and strings. -/
def movement : List Mnemonic :=
  [binary .mov, binary .movzx, binary .movsx, lea, binary .xchg, binary .xadd, binary .cmpxchg,
   cmovcc, setcc, unary .push, unary .pop, plain .pusha, plain .pushad, plain .popa, plain .popad,
   plain .pushf, plain .pushfd, plain .popf, plain .popfd, plain .sahf, plain .lahf, plain .cbw,
   plain .cwde, plain .cwd, plain .cdq, plain .movsb, plain .movsw, plain .movsd, plain .cmpsb,
   plain .cmpsw, plain .cmpsd, plain .stosb, plain .stosw, plain .stosd, plain .lodsb,
   plain .lodsw, plain .lodsd, plain .scasb, plain .scasw, plain .scasd]

/-- Transfers of control, stack frames and traps. -/
def control : List Mnemonic :=
  [unary .jmp, jcc, unary .call, plain .ret, unary .retn, unary .loop, unary .loope, unary .loopne,
   unary .jecxz, binary .enter, plain .leave, plain .int3, unary .int]

/-- Flags, processor control, caches and saved state. -/
def system : List Mnemonic :=
  [plain .nop, unary .longNop, plain .pause, plain .hlt, plain .cmc, plain .clc, plain .stc,
   plain .cli, plain .sti, plain .cld, plain .std, plain .ud2, plain .cpuid, plain .rdtsc,
   plain .rdtscp, plain .rdmsr, plain .wrmsr, plain .rdpmc, plain .sysenter, plain .invd,
   plain .wbinvd, plain .emms, plain .monitor, plain .mwait, plain .xgetbv, address .prefetchnta,
   address .prefetcht0, address .prefetcht1, address .prefetcht2, plain .lfence, plain .mfence,
   plain .sfence, address .clflush, unary .ldmxcsr, unary .stmxcsr, address .fxsave,
   address .fxrstor]

/-- Every mnemonic, in the order of the catalogue. -/
def all : List Mnemonic :=
  arithmetic ++ movement ++ control ++ system

/-- The place of a mnemonic in the catalogue. -/
def index (m : Mnemonic) : Nat :=
  all.idxOf m

/-- The mnemonic of a given name; capitals are not accepted. -/
def ofName (s : String) : Except NameFault Mnemonic :=
  findNamed all fun m => m.name == s

end Mnemonic

end CodeAtlas
