import NetCpp.Factory
import NetCpp.Library.Runs

namespace NetCpp
open Library

/-- The parser between two bytes. The queue `buffer` is the input of `parse`, which
empties it. `made` counts the messages constructed, and with them the readings of
the clock. -/
structure MessageParser where
  headState : Int := -5
  optionState : Int := -4
  bodyState : Int := -1
  tailState : Int := -4
  msgs : List Message := []
  tempBuffer : Bytes := []
  tempMsg : Option Message := none
  made : Nat := 0
deriving DecidableEq, Repr

namespace MessageParser
open Message MessageFactory

def resetState (p : MessageParser) : MessageParser :=
  { p with
    tempBuffer := []
    tempMsg := p.tempMsg.map Message.clear
    headState := -5
    optionState := -4
    bodyState := -1
    tailState := -4 }

/-- `*temp_msg` -/
def message (p : MessageParser) : Except Fault Message :=
  match p.tempMsg with
  | some m => .ok m
  | none => .error .nullPointer

/-- The four parts of a frame, each with a loop of its own. -/
inductive Part where
  | head | option | body | tail
deriving DecidableEq, Repr

/-- The body of a `locate_*` loop, after `c` went from the queue to `temp_buffer`.
The flag is true on a `break`. -/
abbrev Located := Except Fault (MessageParser × Bool)

def locateHead (p : MessageParser) (c : Byte) : Located := do
  if p.headState = -5 then
    return (if c = 77 then { p with headState := p.headState + 1 } else p, false)
  if p.headState = -4 then
    return (if c ≠ 83 then p.resetState else { p with headState := p.headState + 1 }, false)
  if p.headState = -3 then
    return (if c ≠ 71 then p.resetState else { p with headState := p.headState + 1 }, false)
  if p.headState = -2 then
    return (if c = cr then { p with headState := p.headState + 1 } else p, false)
  if p.headState = -1 then
    if c ≠ lf then return (p.resetState, false)
    let p := { p with headState := p.headState + 1 }
    let (done, m) ← decodeMessageHead p.tempBuffer (← p.message)
    let p := { p with tempMsg := some m }
    let p := if done then p else p.resetState
    return ({ p with tempBuffer := [] }, true)
  return (p, false)

def locateOption (p : MessageParser) (c : Byte) : Located := do
  if p.optionState = -4 then
    if c = quote then return ({ p with optionState := p.optionState + 1 }, false)
    if c = cr then return ({ p with optionState := -1 }, false)
    if 47 < charValue c ∧ charValue c < 58 then
      return ({ p with optionState := p.optionState + 1 }, false)
    return (p, false)
  if p.optionState = -3 then
    return (if c = cr then { p with optionState := p.optionState + 1 } else p, false)
  if p.optionState = -2 then
    if c = lf then return ({ p with optionState := -4 }, false)
    return (p.resetState, true)
  if p.optionState = -1 then
    if c ≠ lf then return (p.resetState, true)
    let (done, m) ← decodeMessageOption p.tempBuffer (← p.message)
    let p := { p with tempMsg := some m }
    if !done then return (p.resetState, true)
    return ({ p with optionState := p.optionState + 1, tempBuffer := [] }, true)
  return (p, false)

/-- The `size` line of the body loop: `body_state` from the option, when it is not
yet known. `none` when the handler resets the parser. -/
def locateSize (p : MessageParser) : Except Fault (Option MessageParser) := do
  if p.bodyState ≠ -1 then return some p
  match ← catchRuntimeError ((← p.message).getValue keySize) with
  | none => return none
  | some sSize => return some { p with bodyState := toSSizeT ((← stoul sSize) + 2) }

def locateBody (p : MessageParser) (c : Byte) : Located := do
  match ← locateSize p with
  | none => return (p.resetState, true)
  | some p =>
    if 1 < p.bodyState then return ({ p with bodyState := p.bodyState - 1 }, false)
    -- the branch before this one takes every state from 2 on
    if p.bodyState = 2 then
      if c = cr then return ({ p with bodyState := p.bodyState - 1 }, false)
      return (p.resetState, true)
    if p.bodyState = 1 then
      if c ≠ lf then return (p.resetState, true)
      let (done, m) ← decodeMessageBody p.tempBuffer (← p.message)
      let p := { p with tempMsg := some m }
      if !done then return (p.resetState, true)
      return ({ p with tempBuffer := [], bodyState := p.bodyState - 1 }, true)
    return (p, false)

/-- The third letter falls through to the check of the whole tail. -/
def locateTail (p : MessageParser) (c : Byte) : Located := do
  if p.tailState = -4 then
    if c = 71 then return ({ p with tailState := p.tailState + 1 }, false)
    return (p.resetState, true)
  if p.tailState = -3 then
    if c = 83 then return ({ p with tailState := p.tailState + 1 }, false)
    return (p.resetState, true)
  if p.tailState = -2 ∧ c ≠ 77 then return (p.resetState, true)
  let p := if p.tailState = -2 then { p with tailState := p.tailState + 1 } else p
  if p.tailState = -1 then
    let (done, m) ← decodeMessageTail p.tempBuffer (← p.message)
    let p := { p with tempMsg := some m }
    if !done then return (p.resetState, true)
    return ({ p with tailState := p.tailState + 1, tempBuffer := [] }, true)
  return (p, false)

def locate : Part → MessageParser → Byte → Located
  | .head => locateHead
  | .option => locateOption
  | .body => locateBody
  | .tail => locateTail

def push (p : MessageParser) (c : Byte) : MessageParser :=
  { p with tempBuffer := p.tempBuffer ++ [c] }

/-- Which loop a round of `parse` enters; with none left it would not move on. -/
def part (p : MessageParser) : Option Part :=
  if p.headState < 0 then some .head
  else if p.optionState < 0 then some .option
  else if p.bodyState ≠ 0 then some .body
  else if p.tailState < 0 then some .tail
  else none

/-- "if there is no message concentrated then create new message" -/
def create (clock : Nat → Clock) (p : MessageParser) : MessageParser :=
  match p.tempMsg with
  | some _ => p
  | none => { p with tempMsg := some (Message.new (clock p.made)), made := p.made + 1 }

/-- "tail processing done" -/
def release (p : MessageParser) : MessageParser :=
  if p.tailState = 0 then
    { p with msgs := p.msgs ++ p.tempMsg.toList, tempMsg := none }.resetState
  else p

def loops (clock : Nat → Clock) : Loops MessageParser Byte Fault Part where
  prepare := create clock
  phase := part
  body := fun k p c => locate k (p.push c) c
  finish := release
  stuck := .diverges

/-- The loop that fills the queue. Its counter is an `int` against a `size_t`: behind the last of
2^31 bytes it is counted over the largest `int`, and what happens then is undefined. -/
def fill (buf : Bytes) : Except Fault Bytes :=
  if buf.length < 2 ^ 31 then .ok buf else .error .overflow

/-- The loop that empties the queue. -/
def consume (clock : Nat → Clock) : MessageParser → Bytes → Except Fault MessageParser :=
  (loops clock).exec

/-- `parse` on one received buffer -/
def parse (clock : Nat → Clock) (p : MessageParser) (buf : Bytes) : Except Fault MessageParser := do
  consume clock p (← fill buf)

/-- One buffer after the other. -/
def parseAll (clock : Nat → Clock) : MessageParser → List Bytes → Except Fault MessageParser :=
  run (parse clock)

/-- A state that a fresh parser comes to. -/
def Reachable (clock : Nat → Clock) (p : MessageParser) : Prop :=
  ∃ chunks, parseAll clock {} chunks = .ok p

end MessageParser

end NetCpp
