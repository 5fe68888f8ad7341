import NetCpp.BlocksPool
import NetCpp.Library.Runs

namespace NetCpp
open Library

/-- A block that a module is given or gives back. -/
structure LibArg where
  size : UInt32
  pvle : Bytes
deriving DecidableEq, Repr

/-- `struct farg_info` -/
structure FargInfo where
  type : Bytes
  size : Int32 := 1
deriving DecidableEq, Repr

/-- The entry function of a module: what it returns, and what it leaves in its list of inputs and
in its list of outputs. -/
abbrev PcsFunc := List LibArg → List LibArg → Int × List LibArg × List LibArg

/-- A part and the lists of its module. The file names are left out. -/
structure CPart where
  name : Bytes
  fargsIn : List FargInfo := []
  argsIn : List Ptr := []
  argsOut : List Ptr := []
  libargsIn : List LibArg := []
  libargsOut : List LibArg := []
deriving DecidableEq

namespace CPart

/-- `libargs_in.addArgPtr(main_pool.size(arg), arg)`. The size is passed as an `int`, and no memory
is got for a negative one. -/
def addArgPtr (pool : BlocksPool) (libargsIn : List LibArg) (arg : Ptr) :
    Except Fault (List LibArg) := do
  let blk ← pool.find arg
  if 2 ^ 31 ≤ blk.size.toNat then throw .nullPointer
  let (pvle, _) ← readBytes blk.size.toNat blk.memory
  return libargsIn ++ [⟨blk.size, pvle⟩]

/-- The loop over the outputs, given what `malloc` returns each time. -/
def pushArgs (pool : BlocksPool) (argsOut : List Ptr) : List Ptr → List LibArg →
    Except Fault (BlocksPool × List Ptr)
  | _, [] => .ok (pool, argsOut)
  | mallocs, libarg :: libargs => do
    let (arg, pool) ← pool.bpMalloc libarg.size libarg.pvle (mallocs.headD 0)
    pushArgs pool (argsOut ++ [arg]) mallocs.tail libargs

def run (pool : BlocksPool) (func : Option PcsFunc) (mallocs : List Ptr) (pcp : CPart) :
    Except Fault (BlocksPool × CPart × Int) :=
  match func with
  | none => .error (.message "func is nullptr")
  | some func => do
    if pcp.argsIn.length ≠ pcp.fargsIn.length then
      throw (.message "input arg buff is't correctly init")
    let libargsIn ← Library.run (addArgPtr pool) pcp.libargsIn pcp.argsIn
    let (rtn, libargsIn, libargsOut) := func libargsIn pcp.libargsOut
    if rtn = 0 then
      let (pool, argsOut) ← pushArgs pool pcp.argsOut mallocs libargsOut
      return (pool, { pcp with libargsIn, libargsOut := [], argsOut }, 0)
    else return (pool, { pcp with libargsIn, libargsOut }, -1)

def clear (pool : BlocksPool) (pcp : CPart) : BlocksPool × CPart :=
  ((pool.bFrees pcp.argsIn).bFrees pcp.argsOut, { pcp with argsIn := [], argsOut := [] })

end CPart

/-- The lists of a thread (`map<string, vector<void *>>`) in the order of their names. -/
abbrev ArgLists := List (Bytes × List Ptr)

namespace ArgLists

/-- `find(name)->second` -/
def find (lists : ArgLists) (name : Bytes) : Except Fault (List Ptr) :=
  match lists.lookup name with
  | none => .error .readOutside
  | some args => .ok args

/-- `find(name)->second` with these pointers behind the ones it has. -/
def push (name : Bytes) (args : List Ptr) : ArgLists → Except Fault ArgLists
  | [] => .error .writeOutside
  | (key, old) :: lists =>
    if name = key then .ok ((key, old ++ args) :: lists)
    else do
      let lists ← push name args lists
      return (key, old) :: lists

/-- All pointers of the lists. -/
def pointers (lists : ArgLists) : List Ptr := lists.flatMap Prod.snd

end ArgLists

/-- The arguments of a thread (`class CThread`). -/
structure CThread where
  rargs : ArgLists
  rargsOut : ArgLists
deriving DecidableEq

namespace CThread

/-- Given the names of the parts of the map. -/
def new (names : List Bytes) : CThread where
  rargs := names.map (fun name => (name, []))
  rargsOut := names.map (fun name => (name, []))

/-- The destructor goes over `rargs` twice, the second time without `nullptr`. -/
def destruct (pool : BlocksPool) (pct : CThread) : BlocksPool :=
  (pool.bFrees pct.rargs.pointers).bFrees (pct.rargs.pointers.filter (· ≠ 0))

def addArgs (pool : BlocksPool) (pct : CThread) (name : Bytes) (pvle : Ptr) :
    Except Fault (BlocksPool × CThread) := do
  let pool ← pool.take pvle
  let rargs ← pct.rargs.push name [pvle]
  return (pool, { pct with rargs })

def addArgsOut (pool : BlocksPool) (pct : CThread) (name : Bytes) (pvle : Ptr) :
    Except Fault (BlocksPool × CThread) := do
  let pool ← pool.take pvle
  let rargsOut ← pct.rargsOut.push name [pvle]
  return (pool, { pct with rargsOut })

def prepareArgsIn (pool : BlocksPool) (pct : CThread) (pcp : CPart) :
    Except Fault (BlocksPool × CPart) := do
  let args ← pct.rargs.find pcp.name
  let (pool, pcp) := pcp.clear pool
  let pool ← run BlocksPool.take pool args
  return (pool, { pcp with argsIn := pcp.argsIn ++ args })

def getArgsOut (pct : CThread) (pcp : CPart) : Except Fault CThread := do
  let rargsOut ← pct.rargsOut.push pcp.name pcp.argsOut
  return { pct with rargsOut }

end CThread

/-- `main_pool`, the parts and the threads that there are, and the blocks that the ones who created
them have not given up. -/
structure Computation where
  mainPool : BlocksPool := {}
  cparts : List CPart
  cthreads : List CThread := []
  created : List Ptr := []

/-- A thread and a part are told by their places in the lists. -/
inductive ComputeEvent where
  | create (size : UInt32) (malloc : Ptr)
  | giveUp (ptr : Ptr)
  | newThread
  | addArgs (t : Nat) (name : Bytes) (pvle : Ptr)
  | addArgsOut (t : Nat) (name : Bytes) (pvle : Ptr)
  | prepareArgsIn (t i : Nat)
  | run (i : Nat) (func : Option PcsFunc) (mallocs : List Ptr)
  | getArgsOut (t i : Nat)
  | clear (i : Nat)
  | destruct (t : Nat)

namespace Computation

/-- A call on a thread that there is. -/
def onThread (s : Computation) (t : Nat) (f : CThread → Except Fault Computation) :
    Except Fault Computation :=
  match s.cthreads[t]? with
  | none => .ok s
  | some pct => f pct

/-- A call on a part that there is. -/
def onPart (s : Computation) (i : Nat) (f : CPart → Except Fault Computation) :
    Except Fault Computation :=
  match s.cparts[i]? with
  | none => .ok s
  | some pcp => f pcp

def step (s : Computation) : ComputeEvent → Except Fault Computation
  | .create size malloc =>
    let (ptr, mainPool) := s.mainPool.bMalloc size malloc
    .ok { s with mainPool, created := if ptr = 0 then s.created else s.created ++ [ptr] }
  | .giveUp ptr =>
    if ptr ∈ s.created then
      .ok { s with mainPool := s.mainPool.bFree ptr, created := s.created.erase ptr }
    else .ok s
  | .newThread => .ok { s with cthreads := s.cthreads ++ [.new (s.cparts.map CPart.name)] }
  | .addArgs t name pvle => s.onThread t fun pct => do
    let (mainPool, pct) ← pct.addArgs s.mainPool name pvle
    return { s with mainPool, cthreads := s.cthreads.set t pct }
  | .addArgsOut t name pvle => s.onThread t fun pct => do
    let (mainPool, pct) ← pct.addArgsOut s.mainPool name pvle
    return { s with mainPool, cthreads := s.cthreads.set t pct }
  | .prepareArgsIn t i => s.onThread t fun pct => s.onPart i fun pcp => do
    let (mainPool, pcp) ← pct.prepareArgsIn s.mainPool pcp
    return { s with mainPool, cparts := s.cparts.set i pcp }
  | .run i func mallocs => s.onPart i fun pcp => do
    let (mainPool, pcp, _) ← pcp.run s.mainPool func mallocs
    return { s with mainPool, cparts := s.cparts.set i pcp }
  | .getArgsOut t i => s.onThread t fun pct => s.onPart i fun pcp => do
    let pct ← pct.getArgsOut pcp
    return { s with cthreads := s.cthreads.set t pct }
  | .clear i => s.onPart i fun pcp =>
    let (mainPool, pcp) := pcp.clear s.mainPool
    .ok { s with mainPool, cparts := s.cparts.set i pcp }
  | .destruct t => s.onThread t fun pct =>
    .ok { s with mainPool := pct.destruct s.mainPool, cthreads := s.cthreads.eraseIdx t }

end Computation

end NetCpp
