import NetCpp.Basic

namespace NetCpp

/-- `struct clock_register`; `call` is `func` with its `arg`. -/
structure ClockRegister (α : Type) where
  call : α
  ifThread : Bool := false
  ifReset : Bool := false
  click : Int
  rawclick : Int
deriving DecidableEq

/-- The registered clocks, each with the number of those before it, the threads that run, and those
that have reported their end. The threads that have been started are recorded. -/
structure Clocks (α : Type) where
  clocksList : List (Option (Nat × ClockRegister α)) := []
  registered : Nat := 0
  clockErase : Nat := 30
  tidR : UInt32 := 0
  clocksThreadMap : Std.TreeMap UInt32 α := ∅
  clockThreadFinished : List UInt32 := []
  started : List (Nat × α) := []

inductive ClockEvent (α : Type) where
  | newClock (pncr : ClockRegister α)
  | clockThreadFinish (tid : UInt32)
  | threadsClock
deriving DecidableEq

namespace Clocks
variable {α : Type}

def newClock (s : Clocks α) (pncr : ClockRegister α) : Clocks α :=
  { s with
    clocksList := s.clocksList ++ [some (s.registered, pncr)], registered := s.registered + 1 }

/-- The loop over the finished threads. What is not found is behind the end of the map. -/
def joinThreads : List UInt32 → Std.TreeMap UInt32 α → Except Fault (Std.TreeMap UInt32 α)
  | [], threads => .ok threads
  | tid :: tids, threads =>
    if threads.contains tid then joinThreads tids (threads.erase tid) else .error .readOutside

/-- Every 31 ticks what is nulled is removed. -/
def clean (s : Clocks α) : Clocks α :=
  if s.clockErase = 0 then
    { s with clocksList := s.clocksList.filter Option.isSome, clockErase := 30 }
  else { s with clockErase := s.clockErase - 1 }

/-- A thread with the next number, which `insert` does not put in the place of another. -/
def createThread (s : Clocks α) (i : Nat) (call : α) : Clocks α :=
  { s with
    tidR := s.tidR + 1
    clocksThreadMap := s.clocksThreadMap.insertIfNew s.tidR call
    started := s.started ++ [(i, call)] }

/-- If a tick starts the thread of a clock, and the clock that is left. -/
def tickClock (pclock : ClockRegister α) : Bool × Option (ClockRegister α) :=
  if pclock.click = 0 then
    let pclock := { pclock with ifThread := true }
    (true, if pclock.ifReset then some { pclock with click := pclock.rawclick } else none)
  else if 0 < pclock.click then (false, some { pclock with click := pclock.click - 1 })
  else (false, some pclock)

/-- The loop over the clocks. -/
def tickAll : List (Option (Nat × ClockRegister α)) → Clocks α →
    List (Option (Nat × ClockRegister α)) × Clocks α
  | [], s => ([], s)
  | none :: clocks, s =>
    let rest := tickAll clocks s
    (none :: rest.1, rest.2)
  | some (i, pclock) :: clocks, s =>
    let rest := tickAll clocks (if (tickClock pclock).1 then s.createThread i pclock.call else s)
    ((tickClock pclock).2.map (i, ·) :: rest.1, rest.2)

def threadsClock (s : Clocks α) : Except Fault (Clocks α) := do
  let threads ← joinThreads s.clockThreadFinished s.clocksThreadMap
  let s := clean { s with clocksThreadMap := threads, clockThreadFinished := [] }
  let (clocks, s) := tickAll s.clocksList s
  return { s with clocksList := clocks }

def step (s : Clocks α) : ClockEvent α → Except Fault (Clocks α)
  | .newClock pncr => .ok (s.newClock pncr)
  | .clockThreadFinish tid => .ok { s with clockThreadFinished := s.clockThreadFinished ++ [tid] }
  | .threadsClock => s.threadsClock

end Clocks

end NetCpp
