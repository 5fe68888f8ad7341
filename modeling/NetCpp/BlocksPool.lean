import NetCpp.Memory

namespace NetCpp
open Library

/-- An address. `nullptr` is 0. -/
abbrev Ptr := UInt64

/-- A block of the pool (`class block_info`); `memory` is what `pvle` points to. -/
structure BlockInfo where
  size : UInt32
  lock : Int
  pted : Bool
  memory : Bytes
deriving DecidableEq, Repr

/-- The table of the blocks that are in use. -/
structure BlocksPool where
  blocksList : Std.TreeMap Ptr BlockInfo := ∅

namespace BlocksPool

/-- Given the address that `malloc` returns. What `malloc` leaves in the memory is 0 here: no
function reads it before it is written. -/
def bMalloc (pool : BlocksPool) (size : UInt32) (ptr : Ptr) : Ptr × BlocksPool :=
  if ptr = 0 then (0, pool)
  else
    let bifo : BlockInfo :=
      { size, lock := 1, pted := false, memory := List.replicate size.toNat 0 }
    (ptr, { blocksList := pool.blocksList.insertIfNew ptr bifo })

/-- Without memory, `memcpy` writes to `nullptr`. -/
def bpMalloc (pool : BlocksPool) (size : UInt32) (ptvle : Bytes) (ptr : Ptr) :
    Except Fault (Ptr × BlocksPool) := do
  let (pvalue, pool) := pool.bMalloc size ptr
  if pvalue = 0 then throw .nullPointer
  let (memory, _) ← readBytes size.toNat ptvle
  return (pvalue, { blocksList := pool.blocksList.modify pvalue (fun blk => { blk with memory }) })

/-- The bytes of a value of a type `T`, of which there are `sizeof(T)`. -/
def bvMalloc (pool : BlocksPool) (value : Bytes) (ptr : Ptr) : Except Fault (Ptr × BlocksPool) := do
  let size := UInt32.ofNat value.length
  let (pvalue, pool) := pool.bMalloc size ptr
  if pvalue = 0 then throw .nullPointer
  let memory ← writeBytes size.toNat [] value
  return (pvalue, { blocksList := pool.blocksList.modify pvalue (fun blk => { blk with memory }) })

/-- `blocks_list.find(ptr)->second` -/
def find (pool : BlocksPool) (ptr : Ptr) : Except Fault BlockInfo :=
  match pool.blocksList[ptr]? with
  | none => .error .readOutside
  | some blk => .ok blk

def size (pool : BlocksPool) (ptr : Ptr) : Except Fault UInt32 := do
  let blk ← pool.find ptr
  return blk.size

/-- The lock is an `int`. -/
def bGet (pool : BlocksPool) (ptr : Ptr) : Ptr × BlocksPool :=
  match pool.blocksList[ptr]? with
  | none => (0, pool)
  | some blk =>
    let blk := { blk with lock := (blk.lock + 1).bmod (2 ^ 32) }
    (ptr, { blocksList := pool.blocksList.insert ptr blk })

/-- Without a block it throws the text. -/
def setPted (pool : BlocksPool) (ptr : Ptr) (pted : Bool) (text : String) :
    Except Fault BlocksPool :=
  match pool.blocksList[ptr]? with
  | none => .error (.message text)
  | some blk => .ok { blocksList := pool.blocksList.insert ptr { blk with pted } }

def bProtect (pool : BlocksPool) (ptr : Ptr) : Except Fault BlocksPool :=
  pool.setPted ptr true "protect nil value"

def bNoprotect (pool : BlocksPool) (ptr : Ptr) : Except Fault BlocksPool :=
  pool.setPted ptr false "noprotect nil value"

def bFree (pool : BlocksPool) (ptr : Ptr) : BlocksPool :=
  match pool.blocksList[ptr]? with
  | none => pool
  | some blk =>
    if blk.pted then pool
    else
      let lock := (blk.lock - 1).bmod (2 ^ 32)
      if lock = 0 then { blocksList := pool.blocksList.erase ptr }
      else { blocksList := pool.blocksList.insert ptr { blk with lock } }

/-- The loops that free what a list holds. -/
def bFrees (pool : BlocksPool) (ptrs : List Ptr) : BlocksPool := ptrs.foldl bFree pool

/-- `if(main_pool.b_get(ptr) == nullptr) throw "information lost"` -/
def take (pool : BlocksPool) (ptr : Ptr) : Except Fault BlocksPool := do
  let (p, pool) := pool.bGet ptr
  if p = 0 then throw (.message "information lost")
  return pool

end BlocksPool

/-- A call of the pool. An allocation comes with the address that `malloc` returns. -/
inductive PoolCall where
  | bMalloc (size : UInt32) (malloc : Ptr)
  | bvMalloc (value : Bytes) (malloc : Ptr)
  | bpMalloc (size : UInt32) (ptvle : Bytes) (malloc : Ptr)
  | bGet (ptr : Ptr)
  | bProtect (ptr : Ptr)
  | bNoprotect (ptr : Ptr)
  | bFree (ptr : Ptr)

namespace BlocksPool

/-- The pool after a call that may throw a text, which leaves the pool as it is. -/
def caught (pool : BlocksPool) : Except Fault BlocksPool → Except Fault BlocksPool
  | .error (.message _) => .ok pool
  | r => r

def call (pool : BlocksPool) : PoolCall → Except Fault BlocksPool
  | .bMalloc size malloc => .ok (pool.bMalloc size malloc).2
  | .bvMalloc value malloc => do
    let (_, pool) ← pool.bvMalloc value malloc
    return pool
  | .bpMalloc size ptvle malloc => do
    let (_, pool) ← pool.bpMalloc size ptvle malloc
    return pool
  | .bGet ptr => .ok (pool.bGet ptr).2
  | .bProtect ptr => pool.caught (pool.bProtect ptr)
  | .bNoprotect ptr => pool.caught (pool.bNoprotect ptr)
  | .bFree ptr => .ok (pool.bFree ptr)

end BlocksPool

end NetCpp
