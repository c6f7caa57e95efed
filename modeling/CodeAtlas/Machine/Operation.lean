/-!
# Operations

What an instruction does, apart from its operands.  Operations are sorted by the operands they take:
none (`PlainOp`), one (`UnaryOp`), two (`BinaryOp`), the double shifts (`DoubleShift`), or a bare address
(`AddressOp`).
-/

namespace CodeAtlas

/-- An operation without operands. -/
inductive PlainOp where
  | daa
  | das
  | aaa
  | aas
  | pusha
  | pushad
  | popa
  | popad
  | pushf
  | pushfd
  | popf
  | popfd
  | sahf
  | lahf
  | cbw
  | cwde
  | cwd
  | cdq
  | movsb
  | movsw
  | movsd
  | cmpsb
  | cmpsw
  | cmpsd
  | stosb
  | stosw
  | stosd
  | lodsb
  | lodsw
  | lodsd
  | scasb
  | scasw
  | scasd
  | ret
  | leave
  | int3
  | nop
  | pause
  | hlt
  | cmc
  | clc
  | stc
  | cli
  | sti
  | cld
  | std
  | ud2
  | cpuid
  | rdtsc
  | rdtscp
  | rdmsr
  | wrmsr
  | rdpmc
  | sysenter
  | invd
  | wbinvd
  | emms
  | monitor
  | mwait
  | xgetbv
  | lfence
  | mfence
  | sfence
deriving DecidableEq

/-- The name of an operation without operands. -/
def PlainOp.name : PlainOp → String
  | daa => "daa"
  | das => "das"
  | aaa => "aaa"
  | aas => "aas"
  | pusha => "pusha"
  | pushad => "pushad"
  | popa => "popa"
  | popad => "popad"
  | pushf => "pushf"
  | pushfd => "pushfd"
  | popf => "popf"
  | popfd => "popfd"
  | sahf => "sahf"
  | lahf => "lahf"
  | cbw => "cbw"
  | cwde => "cwde"
  | cwd => "cwd"
  | cdq => "cdq"
  | movsb => "movsb"
  | movsw => "movsw"
  | movsd => "movsd"
  | cmpsb => "cmpsb"
  | cmpsw => "cmpsw"
  | cmpsd => "cmpsd"
  | stosb => "stosb"
  | stosw => "stosw"
  | stosd => "stosd"
  | lodsb => "lodsb"
  | lodsw => "lodsw"
  | lodsd => "lodsd"
  | scasb => "scasb"
  | scasw => "scasw"
  | scasd => "scasd"
  | ret => "ret"
  | leave => "leave"
  | int3 => "int3"
  | nop => "nop"
  | pause => "pause"
  | hlt => "hlt"
  | cmc => "cmc"
  | clc => "clc"
  | stc => "stc"
  | cli => "cli"
  | sti => "sti"
  | cld => "cld"
  | std => "std"
  | ud2 => "ud2"
  | cpuid => "cpuid"
  | rdtsc => "rdtsc"
  | rdtscp => "rdtscp"
  | rdmsr => "rdmsr"
  | wrmsr => "wrmsr"
  | rdpmc => "rdpmc"
  | sysenter => "sysenter"
  | invd => "invd"
  | wbinvd => "wbinvd"
  | emms => "emms"
  | monitor => "monitor"
  | mwait => "mwait"
  | xgetbv => "xgetbv"
  | lfence => "lfence"
  | mfence => "mfence"
  | sfence => "sfence"

/-- An operation with one operand. -/
inductive UnaryOp where
  | inc
  | dec
  | neg
  | not
  | imulAcc
  | mul
  | div
  | idiv
  | push
  | pop
  | jmp
  | call
  | retn
  | loop
  | loope
  | loopne
  | jecxz
  | int
  | longNop
  | ldmxcsr
  | stmxcsr
deriving DecidableEq

/-- The name of an operation with one operand. -/
def UnaryOp.name : UnaryOp → String
  | inc => "inc"
  | dec => "dec"
  | neg => "neg"
  | not => "not"
  | imulAcc => "imulacc"
  | mul => "mul"
  | div => "div"
  | idiv => "idiv"
  | push => "push"
  | pop => "pop"
  | jmp => "jmp"
  | call => "call"
  | retn => "retn"
  | loop => "loop"
  | loope => "loope"
  | loopne => "loopne"
  | jecxz => "jecxz"
  | int => "int"
  | longNop => "longnop"
  | ldmxcsr => "ldmxcsr"
  | stmxcsr => "stmxcsr"

/-- An operation with two operands. -/
inductive BinaryOp where
  | add
  | or
  | adc
  | sbb
  | and
  | sub
  | xor
  | cmp
  | test
  | rol
  | ror
  | rcl
  | rcr
  | shl
  | shr
  | sar
  | bt
  | bts
  | btr
  | btc
  | bsf
  | bsr
  | mov
  | movzx
  | movsx
  | xchg
  | xadd
  | cmpxchg
  | enter
deriving DecidableEq

/-- The name of an operation with two operands. -/
def BinaryOp.name : BinaryOp → String
  | add => "add"
  | or => "or"
  | adc => "adc"
  | sbb => "sbb"
  | and => "and"
  | sub => "sub"
  | xor => "xor"
  | cmp => "cmp"
  | test => "test"
  | rol => "rol"
  | ror => "ror"
  | rcl => "rcl"
  | rcr => "rcr"
  | shl => "shl"
  | shr => "shr"
  | sar => "sar"
  | bt => "bt"
  | bts => "bts"
  | btr => "btr"
  | btc => "btc"
  | bsf => "bsf"
  | bsr => "bsr"
  | mov => "mov"
  | movzx => "movzx"
  | movsx => "movsx"
  | xchg => "xchg"
  | xadd => "xadd"
  | cmpxchg => "cmpxchg"
  | enter => "enter"

/-- A shift of one operand that draws the incoming bits from a second one. -/
inductive DoubleShift where
  | shld
  | shrd
deriving DecidableEq

/-- The name of a double shift. -/
def DoubleShift.name : DoubleShift → String
  | shld => "shld"
  | shrd => "shrd"

/-- An operation on a bare address. -/
inductive AddressOp where
  | prefetchnta
  | prefetcht0
  | prefetcht1
  | prefetcht2
  | clflush
  | fxsave
  | fxrstor
deriving DecidableEq

/-- The name of an operation on a bare address. -/
def AddressOp.name : AddressOp → String
  | prefetchnta => "prefetchnta"
  | prefetcht0 => "prefetcht0"
  | prefetcht1 => "prefetcht1"
  | prefetcht2 => "prefetcht2"
  | clflush => "clflush"
  | fxsave => "fxsave"
  | fxrstor => "fxrstor"

end CodeAtlas
