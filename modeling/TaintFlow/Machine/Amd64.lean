import TaintFlow.Machine.Layout

/-!
# The guest state of x86-64

The register context of a 64-bit x86 guest: 920 bytes, with eight-byte pointers.
Each general purpose register has names for its low four, two and one bytes, and
some have one for their second byte.
-/

namespace TaintFlow.Layout

def generalPurpose : List (String × Slot) := [
  ("rax", ⟨16, 8⟩), ("eax", ⟨16, 4⟩), ("ax", ⟨16, 2⟩), ("al", ⟨16, 1⟩), ("ah", ⟨17, 1⟩),
  ("rcx", ⟨24, 8⟩), ("ecx", ⟨24, 4⟩), ("cx", ⟨24, 2⟩), ("cl", ⟨24, 1⟩), ("ch", ⟨25, 1⟩),
  ("rdx", ⟨32, 8⟩), ("edx", ⟨32, 4⟩), ("dx", ⟨32, 2⟩), ("dl", ⟨32, 1⟩), ("dh", ⟨33, 1⟩),
  ("rbx", ⟨40, 8⟩), ("ebx", ⟨40, 4⟩), ("bx", ⟨40, 2⟩), ("bl", ⟨40, 1⟩), ("bh", ⟨41, 1⟩),
  ("rsp", ⟨48, 8⟩), ("esp", ⟨48, 4⟩), ("sp", ⟨48, 2⟩), ("spl", ⟨48, 1⟩),
  ("rbp", ⟨56, 8⟩), ("ebp", ⟨56, 4⟩), ("bp", ⟨56, 2⟩), ("bpl", ⟨56, 1⟩),
  ("rsi", ⟨64, 8⟩), ("esi", ⟨64, 4⟩), ("si", ⟨64, 2⟩), ("sil", ⟨64, 1⟩), ("sih", ⟨65, 1⟩),
  ("rdi", ⟨72, 8⟩), ("edi", ⟨72, 4⟩), ("di", ⟨72, 2⟩), ("dil", ⟨72, 1⟩), ("dih", ⟨73, 1⟩),
  ("r8", ⟨80, 8⟩), ("r8d", ⟨80, 4⟩), ("r8w", ⟨80, 2⟩), ("r8b", ⟨80, 1⟩),
  ("r9", ⟨88, 8⟩), ("r9d", ⟨88, 4⟩), ("r9w", ⟨88, 2⟩), ("r9b", ⟨88, 1⟩),
  ("r10", ⟨96, 8⟩), ("r10d", ⟨96, 4⟩), ("r10w", ⟨96, 2⟩), ("r10b", ⟨96, 1⟩),
  ("r11", ⟨104, 8⟩), ("r11d", ⟨104, 4⟩), ("r11w", ⟨104, 2⟩), ("r11b", ⟨104, 1⟩),
  ("r12", ⟨112, 8⟩), ("r12d", ⟨112, 4⟩), ("r12w", ⟨112, 2⟩), ("r12b", ⟨112, 1⟩),
  ("r13", ⟨120, 8⟩), ("r13d", ⟨120, 4⟩), ("r13w", ⟨120, 2⟩), ("r13b", ⟨120, 1⟩),
  ("r14", ⟨128, 8⟩), ("r14d", ⟨128, 4⟩), ("r14w", ⟨128, 2⟩), ("r14b", ⟨128, 1⟩),
  ("r15", ⟨136, 8⟩), ("r15d", ⟨136, 4⟩), ("r15w", ⟨136, 2⟩), ("r15b", ⟨136, 1⟩)]

/-- The operands from which the condition flags are computed. -/
def conditionCode : List (String × Slot) := [
  ("cc_op", ⟨144, 8⟩), ("cc_dep1", ⟨152, 8⟩), ("cc_dep2", ⟨160, 8⟩), ("cc_ndep", ⟨168, 8⟩),
  ("d", ⟨176, 8⟩), ("dflag", ⟨176, 8⟩)]

/-- The instruction pointer, and flags and segment bases that are kept on their own. -/
def control : List (String × Slot) := [
  ("rip", ⟨184, 8⟩), ("pc", ⟨184, 8⟩), ("ip", ⟨184, 8⟩),
  ("ac", ⟨192, 8⟩), ("acflag", ⟨192, 8⟩),
  ("id", ⟨200, 8⟩), ("idflag", ⟨200, 8⟩),
  ("fs", ⟨208, 8⟩), ("fs_const", ⟨208, 8⟩),
  ("sseround", ⟨216, 8⟩)]

/-- The vector registers; each `xmm` is the low half of a `ymm`. -/
def vector : List (String × Slot) := [
  ("ymm0", ⟨224, 32⟩), ("xmm0", ⟨224, 16⟩),
  ("ymm1", ⟨256, 32⟩), ("xmm1", ⟨256, 16⟩),
  ("ymm2", ⟨288, 32⟩), ("xmm2", ⟨288, 16⟩),
  ("ymm3", ⟨320, 32⟩), ("xmm3", ⟨320, 16⟩),
  ("ymm4", ⟨352, 32⟩), ("xmm4", ⟨352, 16⟩),
  ("ymm5", ⟨384, 32⟩), ("xmm5", ⟨384, 16⟩),
  ("ymm6", ⟨416, 32⟩), ("xmm6", ⟨416, 16⟩),
  ("ymm7", ⟨448, 32⟩), ("xmm7", ⟨448, 16⟩),
  ("ymm8", ⟨480, 32⟩), ("xmm8", ⟨480, 16⟩),
  ("ymm9", ⟨512, 32⟩), ("xmm9", ⟨512, 16⟩),
  ("ymm10", ⟨544, 32⟩), ("xmm10", ⟨544, 16⟩),
  ("ymm11", ⟨576, 32⟩), ("xmm11", ⟨576, 16⟩),
  ("ymm12", ⟨608, 32⟩), ("xmm12", ⟨608, 16⟩),
  ("ymm13", ⟨640, 32⟩), ("xmm13", ⟨640, 16⟩),
  ("ymm14", ⟨672, 32⟩), ("xmm14", ⟨672, 16⟩),
  ("ymm15", ⟨704, 32⟩), ("xmm15", ⟨704, 16⟩),
  ("ymm16", ⟨736, 32⟩), ("xmm16", ⟨736, 16⟩)]

/-- The floating point stack, its tags and its rounding mode. -/
def floatingPoint : List (String × Slot) := [
  ("ftop", ⟨768, 4⟩),
  ("fpreg", ⟨776, 64⟩), ("fpu_regs", ⟨776, 64⟩),
  ("mm0", ⟨776, 8⟩), ("mm1", ⟨784, 8⟩), ("mm2", ⟨792, 8⟩), ("mm3", ⟨800, 8⟩),
  ("mm4", ⟨808, 8⟩), ("mm5", ⟨816, 8⟩), ("mm6", ⟨824, 8⟩), ("mm7", ⟨832, 8⟩),
  ("fptag", ⟨840, 8⟩), ("fpu_tags", ⟨840, 8⟩),
  ("fpround", ⟨848, 8⟩), ("fc3210", ⟨856, 8⟩)]

/-- What the host records about the guest. -/
def bookkeeping : List (String × Slot) := [
  ("emnote", ⟨864, 4⟩), ("cmstart", ⟨872, 8⟩), ("cmlen", ⟨880, 8⟩), ("nraddr", ⟨888, 8⟩),
  ("gs", ⟨904, 8⟩), ("gs_const", ⟨904, 8⟩), ("ip_at_syscall", ⟨912, 8⟩)]

def amd64Registers : List (String × Slot) :=
  generalPurpose ++ conditionCode ++ control ++ vector ++ floatingPoint ++ bookkeeping

def amd64Description : LayoutDescription where
  name := "amd64"
  contextSize := 920
  pointerWidth := 8
  stackPointer := "rsp"
  programCounter := "pc"
  registers := .ofList amd64Registers

theorem wellFormed_amd64Description : amd64Description.WellFormed where
  pointerWidth_pos := by decide
  pointerWidth_le := by decide
  slots_fit entry hentry := by
    have hall : ∀ entry ∈ amd64Registers, 0 < entry.2.width ∧ entry.2.stop ≤ 920 := by
      decide +kernel
    exact hall entry (NameMap.mem_of_mem_entries_ofList hentry)
  stackPointer_width := by
    simp only [amd64Description, NameMap.get?_ofList]
    decide +kernel
  programCounter_width := by
    simp only [amd64Description, NameMap.get?_ofList]
    decide +kernel

def amd64 : Layout := ⟨amd64Description, wellFormed_amd64Description⟩

end TaintFlow.Layout
