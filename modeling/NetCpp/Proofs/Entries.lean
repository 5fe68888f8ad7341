import NetCpp.BlocksPool
import NetCpp.Library.Maps
import NetCpp.Library.Runs

namespace NetCpp

namespace PoolCall

/-- The address that a call is about. -/
def ptr : PoolCall → Ptr
  | .bMalloc _ malloc | .bvMalloc _ malloc | .bpMalloc _ _ malloc => malloc
  | .bGet ptr | .bProtect ptr | .bNoprotect ptr | .bFree ptr => ptr

/-- `malloc` has given memory. -/
def allocates : PoolCall → Bool
  | .bMalloc _ malloc | .bvMalloc _ malloc | .bpMalloc _ _ malloc => malloc ≠ 0
  | _ => false

def newBlock (size : UInt32) : BlockInfo :=
  { size, lock := 1, pted := false, memory := List.replicate size.toNat 0 }

/-- What a call makes of the entry at its address. -/
def onEntry : PoolCall → Option BlockInfo → Option BlockInfo
  | .bMalloc size malloc, entry => if malloc = 0 then entry else some (entry.getD (newBlock size))
  | .bvMalloc value malloc, entry =>
    if malloc = 0 then entry
    else some { entry.getD (newBlock (UInt32.ofNat value.length)) with memory := value }
  | .bpMalloc size ptvle malloc, entry =>
    if malloc = 0 then entry
    else some { entry.getD (newBlock size) with memory := ptvle.take size.toNat }
  | .bGet _, entry => entry.map fun blk => { blk with lock := (blk.lock + 1).bmod (2 ^ 32) }
  | .bProtect _, entry => entry.map fun blk => { blk with pted := true }
  | .bNoprotect _, entry => entry.map fun blk => { blk with pted := false }
  | .bFree _, entry => entry.bind fun blk =>
    if blk.pted then some blk
    else if (blk.lock - 1).bmod (2 ^ 32) = 0 then none
    else some { blk with lock := (blk.lock - 1).bmod (2 ^ 32) }

end PoolCall

namespace Proofs
open Library

variable {pool pool' : BlocksPool} {p malloc : Ptr} {size : UInt32}

/-- The pool after a change of the entry at one address. -/
def Sets (pool : BlocksPool) (p : Ptr) (entry : Option BlockInfo) (pool' : BlocksPool) : Prop :=
  ∀ q, pool'.blocksList[q]? = if p = q then entry else pool.blocksList[q]?

theorem sets_same {entry : Option BlockInfo} (h : pool.blocksList[p]? = entry) :
    Sets pool p entry pool := by
  intro q
  split
  · rename_i hq
    rw [← hq, h]
  · rfl

theorem sets_insert (blk : BlockInfo) :
    Sets pool p (some blk) { blocksList := pool.blocksList.insert p blk } :=
  fun q => Maps.getElem?_insert _ p q blk

theorem sets_erase : Sets pool p none { blocksList := pool.blocksList.erase p } :=
  fun q => Maps.getElem?_erase _ p q

/-- A block that is allocated and then written. -/
theorem sets_modify (f : BlockInfo → BlockInfo) :
    Sets pool p (some (f ((pool.blocksList[p]?).getD (PoolCall.newBlock size))))
      { blocksList := (pool.blocksList.insertIfNew p (PoolCall.newBlock size)).modify p f } := by
  intro q
  rw [Maps.getElem?_modify, Maps.getElem?_insertIfNew]
  split
  · rename_i hq
    rw [hq]
    rfl
  · rfl

theorem bMalloc_of_ne (h : malloc ≠ 0) : pool.bMalloc size malloc =
    (malloc, { blocksList := pool.blocksList.insertIfNew malloc (PoolCall.newBlock size) }) :=
  if_neg h

theorem bMalloc_sets :
    Sets pool malloc ((PoolCall.bMalloc size malloc).onEntry (pool.blocksList[malloc]?))
    (pool.bMalloc size malloc).2 := by
  by_cases hnull : malloc = 0
  · rw [BlocksPool.bMalloc, PoolCall.onEntry, if_pos hnull, if_pos hnull]
    exact sets_same rfl
  · rw [bMalloc_of_ne hnull, PoolCall.onEntry, if_neg hnull]
    intro q
    rw [Maps.getElem?_insertIfNew]
    split
    · rename_i hq
      rw [hq]
    · rfl

theorem bvMalloc_sets {value : Bytes} {r : Ptr} (h : pool.bvMalloc value malloc = .ok (r, pool')) :
    Sets pool malloc ((PoolCall.bvMalloc value malloc).onEntry (pool.blocksList[malloc]?))
      pool' := by
  by_cases hnull : malloc = 0
  · subst hnull
    cases h
  · simp only [BlocksPool.bvMalloc, bMalloc_of_ne hnull, if_neg hnull] at h
    obtain ⟨memory, hwrite, h⟩ := bind_ok h
    obtain rfl : value = memory := by
      unfold writeBytes at hwrite
      split at hwrite
      · cases hwrite
      · exact Except.ok.inj hwrite
    cases h
    rw [PoolCall.onEntry, if_neg hnull]
    exact sets_modify _

theorem bpMalloc_sets {ptvle : Bytes} {r : Ptr}
    (h : pool.bpMalloc size ptvle malloc = .ok (r, pool')) :
    Sets pool malloc ((PoolCall.bpMalloc size ptvle malloc).onEntry (pool.blocksList[malloc]?))
      pool' := by
  by_cases hnull : malloc = 0
  · subst hnull
    cases h
  · simp only [BlocksPool.bpMalloc, bMalloc_of_ne hnull, if_neg hnull] at h
    obtain ⟨r, hread, h⟩ := bind_ok h
    obtain rfl : (ptvle.take size.toNat, ptvle.drop size.toNat) = r := by
      unfold readBytes at hread
      split at hread
      · cases hread
      · exact Except.ok.inj hread
    cases h
    rw [PoolCall.onEntry, if_neg hnull]
    exact sets_modify _

theorem bpMalloc_ptr {ptvle : Bytes} {r : Ptr}
    (h : pool.bpMalloc size ptvle malloc = .ok (r, pool')) : r = malloc ∧ malloc ≠ 0 := by
  by_cases hnull : malloc = 0
  · subst hnull
    cases h
  · simp only [BlocksPool.bpMalloc, bMalloc_of_ne hnull, if_neg hnull] at h
    obtain ⟨memory, -, h⟩ := bind_ok h
    cases h
    exact ⟨rfl, hnull⟩

theorem bGet_sets :
    Sets pool p ((PoolCall.bGet p).onEntry (pool.blocksList[p]?)) (pool.bGet p).2 := by
  rw [BlocksPool.bGet, PoolCall.onEntry]
  cases hblk : pool.blocksList[p]? with
  | none =>
    exact sets_same hblk
  | some blk => exact sets_insert _

theorem setPted_sets {pted : Bool} {text : String}
    (h : pool.caught (pool.setPted p pted text) = .ok pool') :
    Sets pool p ((pool.blocksList[p]?).map fun blk => { blk with pted }) pool' := by
  rw [BlocksPool.setPted] at h
  cases hblk : pool.blocksList[p]? with
  | none =>
    rw [hblk] at h
    cases h
    exact sets_same hblk
  | some blk =>
    rw [hblk] at h
    cases h
    exact sets_insert _

theorem bFree_sets :
    Sets pool p ((PoolCall.bFree p).onEntry (pool.blocksList[p]?)) (pool.bFree p) := by
  rw [BlocksPool.bFree, PoolCall.onEntry]
  cases hblk : pool.blocksList[p]? with
  | none =>
    exact sets_same hblk
  | some blk =>
    rw [Option.bind_some]
    dsimp only
    split
    · exact sets_same hblk
    · split
      · exact sets_erase
      · exact sets_insert _

/-- A call changes the entry at its address, and nothing else. -/
theorem call_sets {call : PoolCall} (h : pool.call call = .ok pool') :
    Sets pool call.ptr (call.onEntry (pool.blocksList[call.ptr]?)) pool' := by
  cases call with
  | bMalloc size malloc =>
    cases h
    exact bMalloc_sets
  | bvMalloc value malloc =>
    obtain ⟨r, hm, h⟩ := bind_ok h
    cases h
    exact bvMalloc_sets hm
  | bpMalloc size ptvle malloc =>
    obtain ⟨r, hm, h⟩ := bind_ok h
    cases h
    exact bpMalloc_sets hm
  | bGet p =>
    cases h
    exact bGet_sets
  | bProtect p => exact setPted_sets h
  | bNoprotect p => exact setPted_sets h
  | bFree p =>
    cases h
    exact bFree_sets

end Proofs

end NetCpp
