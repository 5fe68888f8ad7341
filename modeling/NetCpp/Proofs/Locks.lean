import NetCpp.Proofs.Entries

namespace NetCpp.Proofs
open Library

/-- The calls on a block since it was allocated. -/
structure Use where
  gets : Nat := 0
  frees : Nat := 0
  pted : Bool := false

def Use.next (u : Use) : PoolCall → Use
  | .bGet _ => { u with gets := u.gets + 1 }
  | .bProtect _ => { u with pted := true }
  | .bNoprotect _ => { u with pted := false }
  | .bFree _ => if u.pted then u else { u with frees := u.frees + 1 }
  | _ => u

/-- The locks that are left. -/
def Use.locks (u : Use) : Int := 1 + u.gets - u.frees

def record (p : Ptr) (u : Option Use) (call : PoolCall) : Option Use :=
  if call.ptr ≠ p then u
  else if call.allocates then some {}
  else u.map (fun u => u.next call)

/-- Calls on an address before its first allocation are not calls on a block. -/
def useOf (past : List PoolCall) (p : Ptr) : Option Use := past.foldl (record p) none

theorem useOf_append (past : List PoolCall) (call : PoolCall) (p : Ptr) :
    useOf (past ++ [call]) p = record p (useOf past p) call := by
  rw [useOf, List.foldl_append]
  rfl

/-- The block has been used as its entry says. -/
structure Tracks (blk : BlockInfo) (u : Use) : Prop where
  positive : 1 ≤ blk.lock
  lock : blk.lock = u.locks
  pted : blk.pted = u.pted

def LocksCounted (past : List PoolCall) (pool : BlocksPool) : Prop :=
  ∀ p blk, pool.blocksList[p]? = some blk → ∃ u, useOf past p = some u ∧ Tracks blk u

/-- A block leaves the pool when it is released for the last time, and only then. -/
def Leaves (past : List PoolCall) (s : BlocksPool) (call : PoolCall) (t : BlocksPool) : Prop :=
  ∀ p blk, s.blocksList[p]? = some blk →
    (t.blocksList[p]? = none ↔
      ∃ u, useOf past p = some u ∧ call = .bFree p ∧ u.pted = false ∧ u.locks - 1 = 0)

def OnlyAt (s : BlocksPool) (call : PoolCall) (t : BlocksPool) : Prop :=
  ∀ p, p ≠ call.ptr → t.blocksList[p]? = s.blocksList[p]?

/-- What holds of the pool in each state that is reached, and of each call there. -/
structure LocksKept (calls : List PoolCall) : Prop where
  counted : ∀ past rest s, calls = past ++ rest → run BlocksPool.call {} past = .ok s →
    LocksCounted past s
  leaves : ∀ past call rest s t, calls = past ++ call :: rest →
    run BlocksPool.call {} past = .ok s →
    s.call call = .ok t → Leaves past s call t
  onlyAt : ∀ past call rest s t, calls = past ++ call :: rest →
    run BlocksPool.call {} past = .ok s →
    s.call call = .ok t → OnlyAt s call t

/-- `malloc` returns no address of a block that is in use. -/
def MallocFresh (pool : BlocksPool) (call : PoolCall) : Prop :=
  call.allocates = true → pool.blocksList[call.ptr]? = none

instance (pool : BlocksPool) (call : PoolCall) : Decidable (MallocFresh pool call) :=
  inferInstanceAs (Decidable (_ → _))

/-- `b_get` finds room for one more in the `int` of the lock. -/
def LockFits (pool : BlocksPool) : PoolCall → Prop
  | .bGet p => ∀ blk ∈ pool.blocksList[p]?, blk.lock < 2 ^ 31 - 1
  | _ => True

/-- The locks are numbers of an `int`. -/
def Fits (blk : BlockInfo) : Prop := blk.lock < 2 ^ 31

section
variable {blk blk' : BlockInfo} {u : Use} {call : PoolCall}

theorem bmod_lock (h : Tracks blk u) (hfits : Fits blk) :
    (blk.lock - 1).bmod (2 ^ 32) = blk.lock - 1 := by
  have hpos := h.positive
  rw [Fits] at hfits
  exact Int.bmod_eq_of_le (by omega) (by omega)

/-- Of a new block nothing has been done yet. -/
theorem tracks_of_allocates (hcall : call.allocates = true) (hblk : call.onEntry none = some blk) :
    Tracks blk {} ∧ Fits blk := by
  have hnew (size : UInt32) (memory : Bytes) :
      Tracks { PoolCall.newBlock size with memory } {} ∧
        Fits { PoolCall.newBlock size with memory } := by
    have hone : (1 : Int) < 2 ^ 31 := by decide
    exact ⟨⟨Int.le_refl 1, rfl, rfl⟩, hone⟩
  cases call with
  | bMalloc size malloc =>
    have hne : malloc ≠ 0 := of_decide_eq_true hcall
    rw [PoolCall.onEntry, if_neg hne] at hblk
    cases hblk
    exact hnew size _
  | bvMalloc value malloc =>
    have hne : malloc ≠ 0 := of_decide_eq_true hcall
    rw [PoolCall.onEntry, if_neg hne] at hblk
    cases hblk
    exact hnew _ value
  | bpMalloc size ptvle malloc =>
    have hne : malloc ≠ 0 := of_decide_eq_true hcall
    rw [PoolCall.onEntry, if_neg hne] at hblk
    cases hblk
    exact hnew size _
  | bGet p => cases hcall
  | bProtect p => cases hcall
  | bNoprotect p => cases hcall
  | bFree p => cases hcall

theorem onEntry_none (hcall : call.allocates = false) : call.onEntry none = none := by
  cases call with
  | bMalloc size malloc => exact if_pos (not_not.mp (of_decide_eq_false hcall))
  | bvMalloc value malloc => exact if_pos (not_not.mp (of_decide_eq_false hcall))
  | bpMalloc size ptvle malloc => exact if_pos (not_not.mp (of_decide_eq_false hcall))
  | bGet p => rfl
  | bProtect p => rfl
  | bNoprotect p => rfl
  | bFree p => rfl

/-- A call that does not allocate leaves an entry that says what has been done with the block. -/
theorem Tracks.next (h : Tracks blk u) (hfits : Fits blk) (hcall : call.allocates = false)
    (hget : ∀ p, call = .bGet p → blk.lock < 2 ^ 31 - 1)
    (hblk : call.onEntry (some blk) = some blk') : Tracks blk' (u.next call) ∧ Fits blk' := by
  have hpos := h.positive
  have hlock := h.lock
  cases call with
  | bMalloc size malloc =>
    rw [PoolCall.onEntry, if_pos (not_not.mp (of_decide_eq_false hcall))] at hblk
    cases hblk
    exact ⟨h, hfits⟩
  | bvMalloc value malloc =>
    rw [PoolCall.onEntry, if_pos (not_not.mp (of_decide_eq_false hcall))] at hblk
    cases hblk
    exact ⟨h, hfits⟩
  | bpMalloc size ptvle malloc =>
    rw [PoolCall.onEntry, if_pos (not_not.mp (of_decide_eq_false hcall))] at hblk
    cases hblk
    exact ⟨h, hfits⟩
  | bGet p =>
    have hlt := hget p rfl
    have hwrap : (blk.lock + 1).bmod (2 ^ 32) = blk.lock + 1 :=
      Int.bmod_eq_of_le (by omega) (by omega)
    rw [PoolCall.onEntry, Option.map_some, hwrap] at hblk
    cases hblk
    refine ⟨⟨?_, ?_, h.pted⟩, ?_⟩
    · dsimp only
      omega
    · simp only [Use.next, Use.locks] at hlock ⊢
      omega
    · simp only [Fits]
      omega
  | bProtect p =>
    cases hblk
    exact ⟨⟨hpos, hlock, rfl⟩, hfits⟩
  | bNoprotect p =>
    cases hblk
    exact ⟨⟨hpos, hlock, rfl⟩, hfits⟩
  | bFree p =>
    rw [PoolCall.onEntry, Option.bind_some, bmod_lock h hfits] at hblk
    rw [Use.next, ← h.pted]
    split at hblk
    · rename_i hpted
      cases hblk
      rw [if_pos hpted]
      exact ⟨h, hfits⟩
    · rename_i hpted
      split at hblk
      · cases hblk
      · rename_i hlast
        cases hblk
        rw [if_neg hpted]
        refine ⟨⟨?_, ?_, rfl⟩, ?_⟩
        · dsimp only
          omega
        · simp only [Use.locks] at hlock ⊢
          omega
        · simp only [Fits] at hfits ⊢
          omega

/-- A block is let go by the release of its last lock. -/
theorem onEntry_eq_none (h : Tracks blk u) (hfits : Fits blk) : call.onEntry (some blk) = none ↔
    call = .bFree call.ptr ∧ u.pted = false ∧ u.locks - 1 = 0 := by
  cases call with
  | bFree p =>
    rw [PoolCall.onEntry, Option.bind_some, bmod_lock h hfits, ← h.pted, ← h.lock]
    cases blk.pted <;> simp [PoolCall.ptr]
  | bMalloc size malloc => simp [PoolCall.onEntry]
  | bvMalloc value malloc =>
    rw [PoolCall.onEntry]
    split <;> simp
  | bpMalloc size ptvle malloc =>
    rw [PoolCall.onEntry]
    split <;> simp
  | bGet p => simp [PoolCall.onEntry]
  | bProtect p => simp [PoolCall.onEntry]
  | bNoprotect p => simp [PoolCall.onEntry]

end

def AllFit (pool : BlocksPool) : Prop := ∀ (p : Ptr) blk, pool.blocksList[p]? = some blk → Fits blk

section
variable {past : List PoolCall} {s t : BlocksPool} {call : PoolCall}

theorem call_onlyAt (hcall : s.call call = .ok t) : OnlyAt s call t := by
  intro p hp
  rw [call_sets hcall p, if_neg (Ne.symm hp)]

theorem call_leaves (h : LocksCounted past s) (hfits : AllFit s) (hcall : s.call call = .ok t) :
    Leaves past s call t := by
  intro p blk hblk
  obtain ⟨u, hu, htracks⟩ := h p blk hblk
  rw [call_sets hcall p]
  by_cases hp : call.ptr = p
  · rw [if_pos hp, hp, hblk, onEntry_eq_none htracks (hfits p blk hblk), hp]
    constructor
    · rintro ⟨hfree, hrest⟩
      exact ⟨u, hu, hfree, hrest⟩
    · rintro ⟨u', hu', hfree, hrest⟩
      obtain rfl := Option.some.inj (hu.symm.trans hu')
      exact ⟨hfree, hrest⟩
  · rw [if_neg hp, hblk]
    constructor
    · intro hnone
      cases hnone
    · rintro ⟨u', -, rfl, -⟩
      exact absurd rfl hp

theorem call_counted (h : LocksCounted past s) (hfits : AllFit s) (hfresh : MallocFresh s call)
    (hlock : LockFits s call) (hcall : s.call call = .ok t) :
    LocksCounted (past ++ [call]) t ∧ AllFit t := by
  have hentry : ∀ p blk', t.blocksList[p]? = some blk' →
      ∃ u, useOf (past ++ [call]) p = some u ∧ Tracks blk' u ∧ Fits blk' := by
    intro p blk' hblk'
    rw [call_sets hcall p] at hblk'
    rw [useOf_append, record]
    by_cases hp : call.ptr = p
    · subst hp
      rw [if_pos rfl] at hblk'
      rw [if_neg (not_not.mpr rfl)]
      cases hall : call.allocates with
      | true =>
        rw [hfresh hall] at hblk'
        exact ⟨{}, rfl, tracks_of_allocates hall hblk'⟩
      | false =>
        cases hblk : s.blocksList[call.ptr]? with
        | none =>
          rw [hblk, onEntry_none hall] at hblk'
          cases hblk'
        | some blk =>
          obtain ⟨u, hu, htracks⟩ := h _ blk hblk
          rw [hblk] at hblk'
          have hget : ∀ p, call = .bGet p → blk.lock < 2 ^ 31 - 1 := by
            rintro p rfl
            exact hlock blk hblk
          refine ⟨u.next call, ?_, htracks.next (hfits _ blk hblk) hall hget hblk'⟩
          rw [hu]
          rfl
    · rw [if_neg hp] at hblk'
      rw [if_pos hp]
      obtain ⟨u, hu, htracks⟩ := h p blk' hblk'
      exact ⟨u, hu, htracks, hfits p blk' hblk'⟩
  constructor
  · intro p blk' hblk'
    obtain ⟨u, hu, htracks, -⟩ := hentry p blk' hblk'
    exact ⟨u, hu, htracks⟩
  · intro p blk' hblk'
    obtain ⟨u, -, -, hfit⟩ := hentry p blk' hblk'
    exact hfit

/-- A lock with no room for one more is no longer what it counts. -/
theorem lockFits_of_counted (hs : LocksCounted past s)
    (ht : ∀ t, s.call call = .ok t → LocksCounted (past ++ [call]) t) : LockFits s call := by
  cases call with
  | bGet p =>
    intro blk hblk
    obtain ⟨u, hu, htracks⟩ := hs p blk hblk
    have hnext : (s.bGet p).2.blocksList[p]? =
        some { blk with lock := (blk.lock + 1).bmod (2 ^ 32) } := by
      rw [bGet_sets p, if_pos rfl, show s.blocksList[p]? = some blk from hblk]
      rfl
    obtain ⟨u', hu', htracks'⟩ := ht _ rfl p _ hnext
    have huse : u' = u.next (.bGet p) := by
      rw [useOf_append, hu] at hu'
      exact (Option.some.inj (by simpa [record, PoolCall.ptr, PoolCall.allocates] using hu')).symm
    have hbefore := htracks.lock
    have hafter := htracks'.lock
    have hlt := @Int.bmod_lt (blk.lock + 1) (2 ^ 32) (by omega)
    rw [huse] at hafter
    simp only [Use.next, Use.locks] at hbefore hafter
    omega
  | bMalloc size malloc => trivial
  | bvMalloc value malloc => trivial
  | bpMalloc size ptvle malloc => trivial
  | bProtect p => trivial
  | bNoprotect p => trivial
  | bFree p => trivial

end

theorem counted_nil : LocksCounted [] {} ∧ AllFit {} := by
  have hempty (p : Ptr) : ({} : BlocksPool).blocksList[p]? = none := Std.TreeMap.getElem?_emptyc
  constructor
  · intro p blk hblk
    cases (hempty p).symm.trans hblk
  · intro p blk hblk
    cases (hempty p).symm.trans hblk

theorem counted_of_along {calls : List PoolCall} {s : BlocksPool}
    (hfresh : Along BlocksPool.call MallocFresh {} calls)
    (hlock : Along BlocksPool.call LockFits {} calls)
    (hrun : run BlocksPool.call {} calls = .ok s) : LocksCounted calls s ∧ AllFit s := by
  refine run_along_history (I := fun past s => LocksCounted past s ∧ AllFit s) ?_ counted_nil
    (hfresh.and hlock) hrun
  intro past s call t h hcond hcall
  exact call_counted h.1 h.2 hcond.1 hcond.2 hcall

/-- As long as `malloc` returns memory that is not in use, the locks are kept just in the runs in
which no `b_get` finds a full lock. -/
theorem locksKept_iff (calls : List PoolCall)
    (hfresh : Along BlocksPool.call MallocFresh {} calls) :
    LocksKept calls ↔ Along BlocksPool.call LockFits {} calls := by
  constructor
  · intro h
    rw [along_iff]
    intro past call rest s hcalls hrun
    apply lockFits_of_counted (h.counted past (call :: rest) s hcalls hrun)
    intro t hcall
    have hnext : run BlocksPool.call {} (past ++ [call]) = .ok t := by
      rw [run_append_ok hrun, run_singleton, hcall]
    exact h.counted (past ++ [call]) rest t
      (by rw [hcalls, List.append_assoc, List.singleton_append]) hnext
  · intro hlock
    constructor
    · rintro past rest s rfl hrun
      exact (counted_of_along hfresh.left hlock.left hrun).1
    · rintro past call rest s t rfl hrun hcall
      obtain ⟨hs, hfits⟩ := counted_of_along hfresh.left hlock.left hrun
      exact call_leaves hs hfits hcall
    · rintro past call rest s t - - hcall
      exact call_onlyAt hcall

/-- A block that is protected for a while, released, and allocated again at the same address. -/
def samplePoolCalls : List PoolCall :=
  [.bMalloc 4 16, .bGet 16, .bProtect 16, .bFree 16, .bNoprotect 16, .bFree 16, .bFree 16,
    .bpMalloc 2 [1, 2] 16, .bvMalloc [3] 32, .bGet 16]

theorem locksKept_iff_sample : Along BlocksPool.call MallocFresh {} samplePoolCalls ∧
    (LocksKept samplePoolCalls ↔ Along BlocksPool.call LockFits {} samplePoolCalls) :=
  ⟨by decide +kernel, locksKept_iff samplePoolCalls (by decide +kernel)⟩

/-- A block that is got over and over. -/
theorem run_bGets {s : BlocksPool} {p : Ptr} {blk : BlockInfo} (n : Nat)
    (hblk : s.blocksList[p]? = some blk) (hrange : blk.lock.bmod (2 ^ 32) = blk.lock) :
    ∃ t, run BlocksPool.call s (List.replicate n (.bGet p)) = .ok t ∧
      t.blocksList[p]? = some { blk with lock := (blk.lock + n).bmod (2 ^ 32) } := by
  induction n generalizing s blk with
  | zero =>
    refine ⟨s, rfl, ?_⟩
    rw [hblk, Int.natCast_zero, Int.add_zero, hrange]
  | succ n ih =>
    have hnext : (s.bGet p).2.blocksList[p]? =
        some { blk with lock := (blk.lock + 1).bmod (2 ^ 32) } := by
      rw [bGet_sets p, if_pos rfl, hblk]
      rfl
    obtain ⟨t, hrun, ht⟩ := ih hnext Int.bmod_bmod
    refine ⟨t, ?_, ?_⟩
    · rw [List.replicate_succ, run_cons_ok rfl]
      exact hrun
    · have hsum : blk.lock + 1 + (n : Int) = blk.lock + ((n + 1 : Nat) : Int) := by omega
      rw [ht, Int.bmod_add_bmod, hsum]

/-- A block that is got `n` times. -/
def manyGets (n : Nat) : List PoolCall := .bMalloc 4 16 :: List.replicate n (.bGet 16)

theorem mallocFresh_manyGets (n : Nat) : Along BlocksPool.call MallocFresh {} (manyGets n) := by
  rw [along_iff]
  intro past call rest s hcalls hrun
  cases past with
  | nil =>
    cases hcalls
    cases hrun
    decide
  | cons first past =>
    have hmem : call ∈ List.replicate n (.bGet 16) := by
      rw [(List.cons.inj hcalls).2]
      exact List.mem_append_right past List.mem_cons_self
    obtain rfl := List.eq_of_mem_replicate hmem
    intro hall
    cases hall

theorem run_manyGets (n : Nat) : ∃ t, run BlocksPool.call {} (manyGets n) = .ok t ∧
    t.blocksList[(16 : Ptr)]? =
      some { PoolCall.newBlock 4 with lock := (1 + (n : Int)).bmod (2 ^ 32) } := by
  have hblk : (({} : BlocksPool).bMalloc 4 16).2.blocksList[(16 : Ptr)]? =
      some (PoolCall.newBlock 4) :=
    bMalloc_sets 16
  obtain ⟨t, hrun, ht⟩ := run_bGets n hblk rfl
  refine ⟨t, ?_, ht⟩
  rw [manyGets, run_cons_ok rfl]
  exact hrun

/-- A block that is got as often as an `int` can count has a lock below 0. -/
theorem not_locksKept_manyGets : Along BlocksPool.call MallocFresh {} (manyGets (2 ^ 31 - 1)) ∧
    ¬LocksKept (manyGets (2 ^ 31 - 1)) := by
  refine ⟨mallocFresh_manyGets _, ?_⟩
  intro h
  obtain ⟨t, hrun, ht⟩ := run_manyGets (2 ^ 31 - 1)
  obtain ⟨u, -, htracks⟩ := h.counted _ [] t (List.append_nil _).symm hrun 16 _ ht
  have hpos := htracks.positive
  have hlock : (1 + ((2 ^ 31 - 1 : Nat) : Int)).bmod (2 ^ 32) = -2 ^ 31 := by decide
  rw [hlock] at hpos
  exact absurd hpos (by decide)

end NetCpp.Proofs
