import Verilua.Access.Fields

/-!
# One signal over many time steps

A signal, its handle in `vpiml` and the `CallableHDL` that drives it. The setters ask for writes as
before; deferred ones are put by the next flush. `set_cached` and `set_imm_cached` leave a write out
when they are given the cached value again.
-/

namespace Verilua.Access

open BitVecs Put TransitionSystem

/-- A simulator, as one signal sees it: `vpi_put_value`, the words that are read, and what
`vpiml_release_value` reads back. -/
structure Simulator (S : Type) where
  put : S → PutFlag → VpiValue → S
  get : S → Nat → UInt32
  readback : S → Readback

structure Driven (S : Type) where
  chdl : Chdl
  handle : ComplexHandle
  signal : S

/-! ### The writers -/

/-- `set`, `set_bitfield`, `set_bitfield_hex_str` and `set_force`, and their immediate variants. -/
inductive Other
  | set (mode : Mode) (value : Arg)
  | setBitfield (mode : Mode) (s e : Nat) (v : Lua.Value)
  | setBitfieldHexStr (mode : Mode) (s e : Nat) (hexStr : HexText)
  | setForce (mode : Mode) (value : Arg)

def Other.mode : Other → Mode
  | .set mode _ | .setBitfield mode .. | .setBitfieldHexStr mode .. | .setForce mode _ => mode

variable (J : Lua.Jit) (get : ComplexHandleRaw → Nat → UInt32)

def ChdlAccessSingle.other (this : Chdl) : Other → Result
  | .set .deferred value => set this value
  | .set .imm value => setImm this value
  | .setBitfield .deferred s e v => setBitfield J get this s e v
  | .setBitfield .imm s e v => setImmBitfield J get this s e v
  | .setBitfieldHexStr .deferred s e hexStr => setBitfieldHexStr J get this s e hexStr
  | .setBitfieldHexStr .imm s e hexStr => setImmBitfieldHexStr J get this s e hexStr
  | .setForce .deferred value => setForce this value
  | .setForce .imm value => setImmForce this value

def ChdlAccessDouble.other (this : Chdl) : Other → Result
  | .set .deferred value => set J this value
  | .set .imm value => setImm J this value
  | .setBitfield .deferred s e v => setBitfield J get this s e v
  | .setBitfield .imm s e v => setImmBitfield J get this s e v
  | .setBitfieldHexStr .deferred s e hexStr => setBitfieldHexStr J get this s e hexStr
  | .setBitfieldHexStr .imm s e hexStr => setImmBitfieldHexStr J get this s e hexStr
  | .setForce .deferred value => setForce J this value
  | .setForce .imm value => setImmForce J this value

def ChdlAccessMulti.other (this : Chdl) : Other → Result
  | .set .deferred value => set J this value
  | .set .imm value => setImm J this value
  | .setBitfield .deferred s e v => setBitfield J get this s e v
  | .setBitfield .imm s e v => setImmBitfield J get this s e v
  | .setBitfieldHexStr .deferred s e hexStr => setBitfieldHexStr J get this s e hexStr
  | .setBitfieldHexStr .imm s e hexStr => setImmBitfieldHexStr J get this s e hexStr
  | .setForce .deferred value => setForce J this value
  | .setForce .imm value => setImmForce J this value

def Chdl.other (this : Chdl) (w : Other) : Result :=
  if this.beatNum = 1 then ChdlAccessSingle.other J get this w
  else if this.beatNum = 2 then ChdlAccessDouble.other J get this w
  else ChdlAccessMulti.other J get this w

/-! ### Cached writes -/

/-- `a == b` -/
def luaEq : Lua.Value → Lua.Value → Bool
  | .num a, .num b => a == b
  | a, b => a.toULL J == b.toULL J

/-- The calls, and the value that is cached then. -/
abbrev CachedResult := Option (Option Lua.Value × List VpimlCall)

/-- The body of `set_cached` and `set_imm_cached`, with the function of `vpiml` that is called. No
such function takes a table. -/
def setCachedBy (vpiml : Lua.Value → VpimlCall) (cachedValue : Option Lua.Value) :
    Arg → CachedResult
  | .scalar v =>
    if cachedValue.any (luaEq J · v) then some (cachedValue, []) else some (some v, [vpiml v])
  | _ => none

def ChdlAccessSingle.setCached (this : Chdl) : Option Lua.Value → Arg → CachedResult :=
  setCachedBy J fun v => ⟨.deferred, .set, this.hdl, .value (scalarToU32 v)⟩

def ChdlAccessSingle.setImmCached (this : Chdl) : Option Lua.Value → Arg → CachedResult :=
  setCachedBy J fun v => ⟨.imm, .set, this.hdl, .value (scalarToU32 v)⟩

def ChdlAccessDouble.setCached (this : Chdl) : Option Lua.Value → Arg → CachedResult :=
  setCachedBy J fun v => ⟨.deferred, .set, this.hdl, .value64 (v.toULL J)⟩

def ChdlAccessDouble.setImmCached (this : Chdl) : Option Lua.Value → Arg → CachedResult :=
  setCachedBy J fun v => ⟨.imm, .set, this.hdl, .value64 (v.toULL J)⟩

def ChdlAccessMulti.setCached (this : Chdl) : Option Lua.Value → Arg → CachedResult :=
  setCachedBy J fun v => ⟨.deferred, .set, this.hdl, .value64ForceSingle (v.toULL J)⟩

def ChdlAccessMulti.setImmCached (this : Chdl) : Option Lua.Value → Arg → CachedResult :=
  setCachedBy J fun v => ⟨.imm, .set, this.hdl, .value64ForceSingle (v.toULL J)⟩

def Chdl.setCached (this : Chdl) (cachedValue : Option Lua.Value) : Mode → Arg → CachedResult
  | .deferred, value =>
    if this.beatNum = 1 then ChdlAccessSingle.setCached J this cachedValue value
    else if this.beatNum = 2 then ChdlAccessDouble.setCached J this cachedValue value
    else ChdlAccessMulti.setCached J this cachedValue value
  | .imm, value =>
    if this.beatNum = 1 then ChdlAccessSingle.setImmCached J this cachedValue value
    else if this.beatNum = 2 then ChdlAccessDouble.setImmCached J this cachedValue value
    else ChdlAccessMulti.setImmCached J this cachedValue value

/-! ### What becomes of the calls -/

namespace Driven

variable {S : Type} (sim : Simulator S)

def perform (d : Driven S) (c : VpimlCall) : Driven S :=
  match c.mode with
  | .deferred => { d with handle := d.handle.take (.set c.action c.value) }
  | .imm =>
    let (handle, value) := c.value.imm d.handle c.action
    { d with handle := handle, signal := sim.put d.signal c.action.flag value }

/-- `set_release` and `set_imm_release`. The immediate one drops the pending put. -/
def release (d : Driven S) : Mode → Driven S
  | .deferred => { d with handle := d.handle.take (.release (sim.readback d.signal)) }
  | .imm =>
    let words := List.ofFn fun i : Fin d.handle.beatNum => (sim.readback d.signal).vector i
    { d with
      handle := { d.handle with putValueFlag := none }
      signal := sim.put d.signal .vpiReleaseFlag (.vector words) }

def flush (d : Driven S) : Driven S :=
  match d.handle.putValueFlag, d.handle.pendingValue with
  | some flag, some value => { d with
      handle := { d.handle with putValueFlag := none }
      signal := sim.put d.signal flag value }
  | _, _ => d

def write (d : Driven S) (w : Other) : Option (Driven S) := do
  let (chdl, calls) ← d.chdl.other J (fun _ => sim.get d.signal) w
  return calls.foldl (perform sim) { d with chdl := chdl }

end Driven

end Verilua.Access
