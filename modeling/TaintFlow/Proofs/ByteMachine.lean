import Mathlib.Data.Finset.Prod
import Mathlib.Data.Multiset.Bind
import Mathlib.Data.Multiset.Filter
import TaintFlow.Proofs.Interval
import TaintFlow.Proofs.Runs
import TaintFlow.Session

/-!
# A machine that tracks single bytes

The specification that sessions are measured by. Its state is a flag for every
offset of the register context and a multiset of address intervals: no packing,
no search tree, no order. It knows nine moves, and `Move.act` says of each which
flags or intervals change and to what.

Which move a call asks for is decided by `Call.resolve` from the layout, the
options and the register values alone. It never looks at taint, and it is also
where every refusal comes from, in the order in which the checks are made.
-/

namespace TaintFlow

/-- Taint by bytes: the flags of the register context by offset, and the tainted
ranges of memory, each as often as it was added. -/
structure ByteState where
  bytes : Nat → Bool
  ranges : Multiset Interval

namespace ByteState

def clean : ByteState := ⟨fun _ => false, 0⟩

/-- Some range holds the address. -/
def Covered (ranges : Multiset Interval) (x : Nat) : Prop := ∃ a ∈ ranges, x ∈ a

instance (ranges : Multiset Interval) (x : Nat) : Decidable (Covered ranges x) :=
  Multiset.decidableExistsMultiset

/-- The flags with the `width` offsets from `offset` on set to `value 0`, `value 1`
and so on. -/
def setBytes (bytes : Nat → Bool) (offset width : Nat) (value : Nat → Bool) : Nat → Bool :=
  fun x => if offset ≤ x ∧ x < offset + width then value (x - offset) else bytes x

/-- The maximal runs of the set flags of a register as address ranges, when its
first byte lies at `address`. -/
def runsAt (bytes : Nat → Bool) (src : Slot) (address : UInt64) : Multiset Interval :=
  ((Finset.range src.width ×ˢ Finset.range (src.width + 1)).filter fun r =>
      IsRun (fun i => bytes (src.offset + i)) 0 src.width r.1 r.2).val.filterMap fun r =>
    Interval.between? (address + UInt64.ofNat r.1) (address + UInt64.ofNat r.2)

/-- Every range replaced by what it has outside of a query, if there is one. -/
def cutOut (ranges : Multiset Interval) : Option Interval → Multiset Interval
  | none => ranges
  | some query => ranges.bind fun a => (a.outside query : Multiset Interval)

/-- Every copy of a range taken away, if there is one. -/
def without (ranges : Multiset Interval) : Option Interval → Multiset Interval
  | none => ranges
  | some range => ranges.filter (· ≠ range)

end ByteState

/-! ## Moves -/

/-- What can happen to taint. A range that may be empty is an `Option`. -/
inductive Move where
  /-- The register takes the taint of the memory at the address. -/
  | load (dest : Slot) (address : UInt64)
  /-- The taint of the register is added to the memory at the address, after `cleared`
  was cut out. -/
  | store (src : Slot) (address : UInt64) (cleared : Option Interval)
  /-- The low bytes that both registers have are copied. -/
  | copy (dest src : Slot)
  | write (offset : Nat) (pattern : List Bool)
  | add (ranges : List Interval)
  /-- A range is taken away where it is stored with exactly these bounds. -/
  | forget (range : Option Interval)
  /-- The addresses of a range are taken out of every stored one. -/
  | cut (range : Option Interval)
  | reset
  | skip

open ByteState in
def Move.act : Move → ByteState → ByteState
  | .load dest address, t =>
      { t with bytes := setBytes t.bytes dest.offset dest.width fun i =>
          decide (Covered t.ranges (address.toNat + i)) }
  | .store src address cleared, t =>
      { t with ranges := cutOut t.ranges cleared + runsAt t.bytes src address }
  | .copy dest src, t =>
      { t with bytes := setBytes t.bytes dest.offset (min dest.width src.width) fun i =>
          t.bytes (src.offset + i) }
  | .write offset pattern, t =>
      { t with bytes := setBytes t.bytes offset pattern.length fun i => pattern.getD i false }
  | .add ranges, t => { t with ranges := t.ranges + ranges }
  | .forget range, t => { t with ranges := without t.ranges range }
  | .cut range, t => { t with ranges := cutOut t.ranges range }
  | .reset, _ => .clean
  | .skip, t => t

/-- A move into a register, refused unless its bytes lie at addresses. -/
def Move.ofLoad (L : Layout) (dest : String) (address : UInt64) : Except Error Move := do
  let slot ← L.slot dest
  let _ ← Interval.ofSize address slot.width
  return .load slot address

def Move.ofStore (L : Layout) (options : PropagationOptions) (address : UInt64)
    (src : String) : Except Error Move := do
  let slot ← L.slot src
  let range ← Interval.ofSize address slot.width
  return .store slot address (if options.overwriteOnStore then range else none)

/-- Every byte of a register set to one value. -/
def Move.ofMark (L : Layout) (register : String) (value : Bool) : Except Error Move := do
  let slot ← L.slot register
  return .write slot.offset (List.replicate slot.width value)

/-- The move that an operand's address leads to; none happens without an address. -/
def Move.atAddress (context : RegisterContext) (operand : MemoryOperand)
    (move : UInt64 → Except Error Move) : Except Error Move := do
  match ← operand.effectiveAddress context with
  | some address => move address
  | none => return .skip

/-- Where a push of `src` writes. -/
def pushTarget (L : Layout) (options : PropagationOptions) (context : RegisterContext)
    (src : String) : Except Error UInt64 := do
  let top ← context.read L.stackPointer
  match options.pushSlot with
  | .atStackPointer => return top
  | .belowStackPointer =>
    let slot ← L.slot src
    return top - UInt64.ofNat slot.width

/-- The move of a transfer. -/
def Transfer.resolve (L : Layout) (options : PropagationOptions) (context : RegisterContext) :
    Transfer → Except Error Move
  | .load dest src => Move.atAddress context src (Move.ofLoad L dest)
  | .store dest src => Move.atAddress context dest (Move.ofStore L options · src)
  | .copy dest src => do
    let dest ← L.slot dest
    let src ← L.slot src
    return .copy dest src
  | .zero dest | .clear dest => Move.ofMark L dest false
  | .clearMemory dest size => Move.atAddress context dest fun address => do
    let range ← Interval.ofSize address size.toNat
    return .forget range
  | .push src => do
    let address ← pushTarget L options context src
    Move.ofStore L options address src
  | .pop dest => do
    let top ← context.read L.stackPointer
    Move.ofLoad L dest top
  | .ret => do
    let top ← context.read L.stackPointer
    Move.ofLoad L L.programCounter top
  | .untracked => return .skip

/-! ## Calls -/

/-- What a caller asks of a session. -/
inductive Call where
  | execute (instruction : Instruction) (context : RegisterContext)
  | taintRegister (register : String)
  | untaintRegister (register : String)
  | copyRegister (dest src : String)
  | loadRegister (register : String) (length : Nat) (bitmap : BitSet length)
  | taintMemory (address : UInt64) (size : Nat)
  | untaintMemory (address : UInt64) (size : Nat)
  | clearMemory (address : UInt64) (size : Nat)
  | importRanges (ranges : List Interval)
  | reset

/-- The move of a call, or why it is refused. -/
def Call.resolve (L : Layout) (options : PropagationOptions) : Call → Except Error Move
  | .execute instruction context => (Transfer.classify instruction).resolve L options context
  | .taintRegister register => Move.ofMark L register true
  | .untaintRegister register => Move.ofMark L register false
  | .copyRegister dest src => do
    let dest ← L.slot dest
    let src ← L.slot src
    return .copy dest src
  | .loadRegister register length bitmap => do
    let slot ← L.slot register
    if length < slot.width then
      throw (.bitmapTooShort register slot.width length)
    return .write slot.offset (bitmap.toList.take slot.width)
  | .taintMemory address size => do
    let range ← Interval.ofSize address size
    return .add range.toList
  | .untaintMemory address size => do
    let range ← Interval.ofSize address size
    return .forget range
  | .clearMemory address size => do
    let range ← Interval.ofSize address size
    return .cut range
  | .importRanges ranges => return .add ranges
  | .reset => return .reset

/-- One call on the bytes. -/
def ByteState.call (L : Layout) (options : PropagationOptions) (t : ByteState) (call : Call) :
    Except Error ByteState := do
  let move ← call.resolve L options
  return move.act t

namespace Session

variable {L : Layout}

/-- One call on a session: how it ends, and the session after it. -/
def call (s : Session L) : Call → Except Error Unit × Session L
  | .execute instruction context =>
      let (result, s) := s.execute instruction context
      (result.map fun _ => (), s)
  | .taintRegister register => s.taintRegister register
  | .untaintRegister register => s.untaintRegister register
  | .copyRegister dest src => s.run (Tracking.onRegisters (RegisterTaint.copy dest src))
  | .loadRegister register _ bitmap =>
      s.run (Tracking.onRegisters (RegisterTaint.load register bitmap))
  | .taintMemory address size => s.taintMemory address size
  | .untaintMemory address size => s.untaintMemory address size
  | .clearMemory address size => s.run (Tracking.onMemory (MemoryTaint.clear address size))
  | .importRanges ranges => s.run (Tracking.onMemory (modify (·.addAll ranges)))
  | .reset => (.ok (), s.reset)

/-- One call that has to succeed. -/
def step (s : Session L) (call : Call) : Except Error (Session L) :=
  match s.call call with
  | (.ok (), after) => .ok after
  | (.error e, _) => .error e

end Session

end TaintFlow
