import NetCpp.Proofs.Blocks

namespace NetCpp.Proofs
open Library Library.Counts

def threadPointers (pct : CThread) : List Ptr := pct.rargs.pointers ++ pct.rargsOut.pointers

def partPointers (pcp : CPart) : List Ptr := pcp.argsIn ++ pcp.argsOut

/-- The lock of its creator, and its places in the lists of the threads and of the parts. -/
def holders (s : Computation) (p : Ptr) : Nat :=
  s.created.count p + (s.cthreads.flatMap threadPointers).count p +
    (s.cparts.flatMap partPointers).count p

variable {s t : Computation} {pool : BlocksPool}

/-- The lists of the parts with one part replaced. -/
theorem holders_setPart {i : Nat} {pcp : CPart} (pool : BlocksPool) (h : s.cparts[i]? = some pcp)
    (pcp' : CPart) (p : Ptr) :
    holders { s with mainPool := pool, cparts := s.cparts.set i pcp' } p +
      (partPointers pcp).count p = holders s p + (partPointers pcp').count p := by
  have hcount := count_flatMap_set (f := partPointers) h pcp' p
  simp only [holders]
  omega

/-- A part whose lists grow. -/
theorem holders_growPart {i n : Nat} {pcp pcp' : CPart} {p : Ptr} (h : s.cparts[i]? = some pcp)
    (hcount : (partPointers pcp').count p = (partPointers pcp).count p + n) :
    holders s p + n = holders { s with mainPool := pool, cparts := s.cparts.set i pcp' } p := by
  have hset := holders_setPart pool h pcp' p
  omega

/-- A thread whose lists grow. -/
theorem holders_growThread {i n : Nat} {pct pct' : CThread} {p : Ptr}
    (h : s.cthreads[i]? = some pct)
    (hcount : (threadPointers pct').count p = (threadPointers pct).count p + n) :
    holders s p + n = holders { s with mainPool := pool, cthreads := s.cthreads.set i pct' } p := by
  have hset := count_flatMap_set (f := threadPointers) h pct' p
  simp only [holders]
  omega

theorem holders_eraseThread {i : Nat} {pct : CThread} (h : s.cthreads[i]? = some pct) (p : Ptr) :
    holders { s with mainPool := pool, cthreads := s.cthreads.eraseIdx i } p +
      (threadPointers pct).count p = holders s p := by
  have hcount := count_flatMap_eraseIdx (f := threadPointers) h p
  simp only [holders]
  omega

/-- `push` puts the pointers into one of the lists. -/
theorem count_push {lists lists' : ArgLists} {name : Bytes} {args : List Ptr}
    (h : lists.push name args = .ok lists') (p : Ptr) :
    lists'.pointers.count p = lists.pointers.count p + args.count p := by
  induction lists generalizing lists' with
  | nil => cases h
  | cons entry lists ih =>
    obtain ⟨key, old⟩ := entry
    unfold ArgLists.push at h
    split at h
    · cases h
      simp only [ArgLists.pointers, List.flatMap_cons, List.count_append]
      omega
    · obtain ⟨rest, hrest, heq⟩ := bind_ok h
      cases heq
      have hcount := ih hrest
      simp only [ArgLists.pointers, List.flatMap_cons, List.count_append] at hcount ⊢
      omega

theorem pointers_new (names : List Bytes) : threadPointers (CThread.new names) = [] := by
  simp [threadPointers, CThread.new, ArgLists.pointers, List.flatMap_map]

/-- What a call does on a thread or a part that there is not. -/
theorem onThread_ok {i : Nat} {f : CThread → Except Fault Computation}
    (h : s.onThread i f = .ok t) :
    s.cthreads[i]? = none ∧ t = s ∨ ∃ pct, s.cthreads[i]? = some pct ∧ f pct = .ok t := by
  unfold Computation.onThread at h
  split at h
  · rename_i hnone
    cases h
    exact .inl ⟨hnone, rfl⟩
  · rename_i pct hpct
    exact .inr ⟨pct, hpct, h⟩

theorem onPart_ok {i : Nat} {f : CPart → Except Fault Computation} (h : s.onPart i f = .ok t) :
    s.cparts[i]? = none ∧ t = s ∨ ∃ pcp, s.cparts[i]? = some pcp ∧ f pcp = .ok t := by
  unfold Computation.onPart at h
  split at h
  · rename_i hnone
    cases h
    exact .inl ⟨hnone, rfl⟩
  · rename_i pcp hpcp
    exact .inr ⟨pcp, hpcp, h⟩

/-- `malloc` returns memory that is not in use, or `nullptr`. -/
def Allocates (s : Computation) : ComputeEvent → Prop
  | .create _ malloc => malloc ≠ 0 → s.mainPool.blocksList[malloc]? = none
  | .run _ _ mallocs => Fresh s.mainPool mallocs
  | _ => True

instance (s : Computation) (e : ComputeEvent) : Decidable (Allocates s e) :=
  match e with
  | .create _ malloc =>
    inferInstanceAs (Decidable (malloc ≠ 0 → s.mainPool.blocksList[malloc]? = none))
  | .run _ _ mallocs => inferInstanceAs (Decidable (Fresh s.mainPool mallocs))
  | .giveUp _ | .newThread | .addArgs .. | .addArgsOut .. | .prepareArgsIn .. | .getArgsOut ..
  | .clear _ | .destruct _ => isTrue trivial

/-- `GetArgsOut` finds nothing to copy. A thread that ends holds each block as often in
`rargs_out` as in `rargs`, or it alone holds the block, in `rargs` at least as often. No block is
taken so often that its lock leaves the range of an `int`. -/
def Keeps (s : Computation) : ComputeEvent → Prop
  | .addArgs _ _ pvle => holders s pvle + 1 < 2 ^ 31
  | .addArgsOut _ _ pvle => holders s pvle + 1 < 2 ^ 31
  | .prepareArgsIn j i => ∀ pct ∈ s.cthreads[j]?, ∀ pcp ∈ s.cparts[i]?,
    ∀ args ∈ pct.rargs.lookup pcp.name,
    Each args fun p => holders s p - (partPointers pcp).count p + args.count p < 2 ^ 31
  | .getArgsOut j i => ∀ _pct ∈ s.cthreads[j]?, ∀ pcp ∈ s.cparts[i]?, pcp.argsOut = []
  | .destruct j => ∀ pct ∈ s.cthreads[j]?, Each (threadPointers pct) fun p =>
    pct.rargs.pointers.count p = pct.rargsOut.pointers.count p ∨
      holders s p = pct.rargs.pointers.count p + pct.rargsOut.pointers.count p ∧
        pct.rargsOut.pointers.count p ≤ pct.rargs.pointers.count p
  | _ => True

instance (s : Computation) (e : ComputeEvent) : Decidable (Keeps s e) :=
  match e with
  | .addArgs _ _ pvle => inferInstanceAs (Decidable (holders s pvle + 1 < 2 ^ 31))
  | .addArgsOut _ _ pvle => inferInstanceAs (Decidable (holders s pvle + 1 < 2 ^ 31))
  | .prepareArgsIn j i => inferInstanceAs (Decidable (∀ pct ∈ s.cthreads[j]?, ∀ pcp ∈ s.cparts[i]?,
      ∀ args ∈ pct.rargs.lookup pcp.name,
      Each args fun p => holders s p - (partPointers pcp).count p + args.count p < 2 ^ 31))
  | .getArgsOut j i => inferInstanceAs (Decidable (∀ _pct ∈ s.cthreads[j]?, ∀ pcp ∈ s.cparts[i]?,
      pcp.argsOut = []))
  | .destruct j =>
    inferInstanceAs (Decidable (∀ pct ∈ s.cthreads[j]?, Each (threadPointers pct) fun p =>
      pct.rargs.pointers.count p = pct.rargsOut.pointers.count p ∨
        holders s p = pct.rargs.pointers.count p + pct.rargsOut.pointers.count p ∧
          pct.rargsOut.pointers.count p ≤ pct.rargs.pointers.count p))
  | .create .. | .giveUp _ | .newThread | .run .. | .clear _ => isTrue trivial

/-- The locks of the pool are the numbers of holders. -/
abbrev Accounted (s : Computation) : Prop := Represents s.mainPool (holders s)

theorem count_partPointers_le {i : Nat} {pcp : CPart} (h : s.cparts[i]? = some pcp) (p : Ptr) :
    (partPointers pcp).count p ≤ holders s p := by
  have hset := holders_setPart s.mainPool h { pcp with argsIn := [], argsOut := [] } p
  simp only [partPointers, List.append_nil, List.count_nil] at hset ⊢
  omega

theorem clear_represents (h : Accounted s) (pcp : CPart) :
    Represents (pcp.clear s.mainPool).1 (fun p => holders s p - (partPointers pcp).count p) := by
  apply ((Represents.bFrees h pcp.argsIn).bFrees pcp.argsOut).congr
  intro p
  rw [partPointers, List.count_append]
  omega

theorem accounted_create {size : UInt32} {malloc : Ptr} (h : Accounted s)
    (hmalloc : Allocates s (.create size malloc)) (hstep : s.step (.create size malloc) = .ok t) :
    Accounted t := by
  by_cases hnull : malloc = 0
  · subst hnull
    cases hstep
    exact h
  · obtain ⟨pool, heq, hnew⟩ := Represents.bMalloc size h hnull (hmalloc hnull)
    simp only [Computation.step, heq, hnull, if_false] at hstep
    cases hstep
    apply hnew.congr
    intro p
    simp only [holders, more, List.count_append, List.count_singleton, beq_iff_eq]
    omega

theorem accounted_giveUp {ptr : Ptr} (h : Accounted s) (hstep : s.step (.giveUp ptr) = .ok t) :
    Accounted t := by
  simp only [Computation.step] at hstep
  split at hstep
  · rename_i hmem
    cases hstep
    apply (Represents.bFree h ptr).congr
    intro p
    have hpos := List.count_pos_iff.mpr hmem
    simp only [holders, less, List.count_erase, beq_iff_eq]
    by_cases hp : ptr = p
    · subst hp
      simp
      omega
    · simp [hp]
  · cases hstep
    exact h

/-- A thread takes one more block. -/
theorem accounted_take {j : Nat} {pct pct' : CThread} {pvle : Ptr} (h : Accounted s)
    (hpct : s.cthreads[j]? = some pct) (hmax : holders s pvle + 1 < 2 ^ 31)
    (htake : s.mainPool.take pvle = .ok pool)
    (hcount : ∀ p, (threadPointers pct').count p = (threadPointers pct).count p + [pvle].count p) :
    Accounted { s with mainPool := pool, cthreads := s.cthreads.set j pct' } := by
  apply (Represents.take h hmax htake).congr
  intro p
  rw [← holders_growThread hpct (hcount p), more, List.count_singleton]
  simp only [beq_iff_eq]

theorem accounted_addArgs {j : Nat} {name : Bytes} {pvle : Ptr} (h : Accounted s)
    (hmax : Keeps s (.addArgs j name pvle)) (hstep : s.step (.addArgs j name pvle) = .ok t) :
    Accounted t := by
  rcases onThread_ok hstep with ⟨-, rfl⟩ | ⟨pct, hpct, hcall⟩
  · exact h
  · obtain ⟨⟨pool, pct'⟩, hadd, heq⟩ := bind_ok hcall
    cases heq
    obtain ⟨pool₁, htake, hadd⟩ := bind_ok hadd
    obtain ⟨rargs, hpush, heq⟩ := bind_ok hadd
    cases heq
    apply accounted_take h hpct hmax htake
    intro p
    have hcount := count_push hpush p
    simp only [threadPointers, List.count_append]
    omega

theorem accounted_addArgsOut {j : Nat} {name : Bytes} {pvle : Ptr} (h : Accounted s)
    (hmax : Keeps s (.addArgsOut j name pvle)) (hstep : s.step (.addArgsOut j name pvle) = .ok t) :
    Accounted t := by
  rcases onThread_ok hstep with ⟨-, rfl⟩ | ⟨pct, hpct, hcall⟩
  · exact h
  · obtain ⟨⟨pool, pct'⟩, hadd, heq⟩ := bind_ok hcall
    cases heq
    obtain ⟨pool₁, htake, hadd⟩ := bind_ok hadd
    obtain ⟨rargsOut, hpush, heq⟩ := bind_ok hadd
    cases heq
    apply accounted_take h hpct hmax htake
    intro p
    have hcount := count_push hpush p
    simp only [threadPointers, List.count_append]
    omega

theorem accounted_prepareArgsIn {j i : Nat} (h : Accounted s) (hmax : Keeps s (.prepareArgsIn j i))
    (hstep : s.step (.prepareArgsIn j i) = .ok t) : Accounted t := by
  rcases onThread_ok hstep with ⟨-, rfl⟩ | ⟨pct, hpct, hcall⟩
  · exact h
  · rcases onPart_ok hcall with ⟨-, rfl⟩ | ⟨pcp, hpcp, hcall⟩
    · exact h
    · obtain ⟨⟨pool, pcp'⟩, hprepare, heq⟩ := bind_ok hcall
      cases heq
      obtain ⟨args, hargs, hprepare⟩ := bind_ok hprepare
      have hfound : args ∈ pct.rargs.lookup pcp.name := by
        unfold ArgLists.find at hargs
        split at hargs
        · cases hargs
        · rename_i found hfound
          cases hargs
          exact hfound
      obtain ⟨pool₁, htakes, heq⟩ := bind_ok hprepare
      cases heq
      apply ((clear_represents h pcp).takes (hmax pct hpct pcp hpcp args hfound) htakes).congr
      intro p
      have hset := holders_setPart pool hpcp
        { (pcp.clear s.mainPool).2 with argsIn := (pcp.clear s.mainPool).2.argsIn ++ args } p
      have hle := count_partPointers_le hpcp p
      simp only [partPointers, CPart.clear, List.nil_append, List.append_nil] at hset hle ⊢
      omega

theorem accounted_run {i : Nat} {func : Option PcsFunc} {mallocs : List Ptr} (h : Accounted s)
    (hfresh : Fresh s.mainPool mallocs) (hstep : s.step (.run i func mallocs) = .ok t) :
    Accounted t := by
  rcases onPart_ok hstep with ⟨-, rfl⟩ | ⟨pcp, hpcp, hcall⟩
  · exact h
  · obtain ⟨⟨pool, pcp', rtn⟩, hrun, heq⟩ := bind_ok hcall
    cases heq
    unfold CPart.run at hrun
    split at hrun
    · cases hrun
    · rename_i f
      simp only at hrun
      split at hrun
      · cases hrun
      obtain ⟨libargsIn, -, hrun⟩ := bind_ok hrun
      split at hrun
      · obtain ⟨⟨pool₁, argsOut⟩, hpush, heq⟩ := bind_ok hrun
        cases heq
        obtain ⟨new, rfl, hnew⟩ := Represents.pushArgs h hfresh hpush
        apply hnew.congr
        intro p
        apply holders_growPart hpcp
        simp only [partPointers, List.count_append]
        omega
      · cases hrun
        apply Represents.congr h
        intro p
        exact holders_growPart (n := 0) hpcp rfl

theorem accounted_clear {i : Nat} (h : Accounted s) (hstep : s.step (.clear i) = .ok t) :
    Accounted t := by
  rcases onPart_ok hstep with ⟨-, rfl⟩ | ⟨pcp, hpcp, hcall⟩
  · exact h
  · cases hcall
    apply (clear_represents h pcp).congr
    intro p
    have hset := holders_setPart (pcp.clear s.mainPool).1 hpcp (pcp.clear s.mainPool).2 p
    simp only [partPointers, CPart.clear, List.append_nil, List.count_nil] at hset ⊢
    omega

/-- `GetArgsOut` copies pointers and takes no block. -/
theorem accounted_getArgsOut_iff {j i : Nat} (h : Accounted s)
    (hstep : s.step (.getArgsOut j i) = .ok t) : Accounted t ↔ Keeps s (.getArgsOut j i) := by
  rcases onThread_ok hstep with ⟨hnone, rfl⟩ | ⟨pct, hpct, hcall⟩
  · refine iff_of_true h ?_
    intro pct hpct
    cases hnone.symm.trans hpct
  · rcases onPart_ok hcall with ⟨hnone, rfl⟩ | ⟨pcp, hpcp, hcall⟩
    · refine iff_of_true h ?_
      intro _ _ pcp hpcp
      cases hnone.symm.trans hpcp
    · obtain ⟨pct', hget, heq⟩ := bind_ok hcall
      cases heq
      obtain ⟨rargsOut, hpush, heq⟩ := bind_ok hget
      cases heq
      have hholders : ∀ p, holders s p + pcp.argsOut.count p = holders
          { s with cthreads := s.cthreads.set j { pct with rargsOut } } p := by
        intro p
        apply holders_growThread hpct
        have hcount := count_push hpush p
        simp only [threadPointers, List.count_append]
        omega
      constructor
      · intro hnext _ _ pcp₁ hpcp₁
        obtain rfl := Option.some.inj (hpcp.symm.trans hpcp₁)
        apply List.eq_nil_iff_forall_not_mem.mpr
        intro p hp
        have hsame : holders s p =
            holders { s with cthreads := s.cthreads.set j { pct with rargsOut } } p :=
          Represents.unique h hnext p
        have hpos := List.count_pos_iff.mpr hp
        have hsum := hholders p
        omega
      · intro hkeeps
        apply Represents.congr h
        intro p
        have hsum := hholders p
        rwa [hkeeps pct hpct pcp hpcp] at hsum

/-- A destructor that frees the lists it should has freed as much as it gives up. -/
theorem accounted_destruct_iff {j : Nat} (h : Accounted s) (hstep : s.step (.destruct j) = .ok t) :
    Accounted t ↔ Keeps s (.destruct j) := by
  rcases onThread_ok hstep with ⟨hnone, rfl⟩ | ⟨pct, hpct, hcall⟩
  · refine iff_of_true h ?_
    intro pct hpct
    cases hnone.symm.trans hpct
  · cases hcall
    have hleft : ∀ p, holders { s with
        mainPool := pct.destruct s.mainPool, cthreads := s.cthreads.eraseIdx j } p +
        (pct.rargs.pointers.count p + pct.rargsOut.pointers.count p) = holders s p := by
      intro p
      rw [← List.count_append]
      exact holders_eraseThread hpct p
    have hnotNull : 0 ∉ pct.rargs.pointers := by
      intro hmem
      have hpos := List.count_pos_iff.mpr hmem
      have hnull := Represents.null h
      have hzero := hleft 0
      omega
    have hfilter : pct.rargs.pointers.filter (· ≠ 0) = pct.rargs.pointers := by
      apply List.filter_eq_self.mpr
      intro p hp
      apply decide_eq_true
      intro heq
      exact hnotNull (heq ▸ hp)
    have hpool : Represents (pct.destruct s.mainPool)
        (fun p => holders s p - pct.rargs.pointers.count p - pct.rargs.pointers.count p) := by
      rw [CThread.destruct, hfilter]
      exact (Represents.bFrees h _).bFrees _
    constructor
    · intro hnext pct₁ hpct₁ p _
      obtain rfl := Option.some.inj (hpct.symm.trans hpct₁)
      have hsame := Represents.unique hpool hnext p
      have hsum := hleft p
      omega
    · intro hkeeps
      apply hpool.congr
      intro p
      have hsum := hleft p
      by_cases hp : p ∈ threadPointers pct
      · have hcounts := hkeeps pct hpct p hp
        omega
      · have hzero := List.count_eq_zero_of_not_mem hp
        rw [threadPointers, List.count_append] at hzero
        omega

theorem accounted_step {e : ComputeEvent} (h : Accounted s) (hmalloc : Allocates s e)
    (hkeeps : Keeps s e) (hstep : s.step e = .ok t) : Accounted t := by
  cases e with
  | create size malloc => exact accounted_create h hmalloc hstep
  | giveUp ptr => exact accounted_giveUp h hstep
  | newThread =>
    cases hstep
    apply Represents.congr h
    intro p
    simp [holders, pointers_new]
  | addArgs j name pvle => exact accounted_addArgs h hkeeps hstep
  | addArgsOut j name pvle => exact accounted_addArgsOut h hkeeps hstep
  | prepareArgsIn j i => exact accounted_prepareArgsIn h hkeeps hstep
  | run i func mallocs => exact accounted_run h hmalloc hstep
  | getArgsOut j i => exact (accounted_getArgsOut_iff h hstep).mpr hkeeps
  | clear i => exact accounted_clear h hstep
  | destruct j => exact (accounted_destruct_iff h hstep).mpr hkeeps

/-- Parts with empty lists, and nothing else. -/
structure Initial (s : Computation) : Prop where
  pool : s.mainPool.blocksList = ∅
  threads : s.cthreads = []
  created : s.created = []
  parts : ∀ pcp ∈ s.cparts, pcp.argsIn = [] ∧ pcp.argsOut = []

/-- Each block of the pool has as many locks as it has holders, and the pool has just the blocks
that somebody holds. -/
structure Balanced (s : Computation) : Prop where
  lock : ∀ p (blk : BlockInfo), s.mainPool.blocksList[p]? = some blk →
    blk.lock = (holders s p : Int)
  kept : ∀ p, 0 < holders s p → ∃ blk, s.mainPool.blocksList[p]? = some blk
  released : ∀ p, holders s p = 0 → s.mainPool.blocksList[p]? = none

theorem Initial.accounted (h : Initial s) : Accounted s := by
  have hzero : ∀ p, holders s p = 0 := by
    intro p
    have hparts : s.cparts.flatMap partPointers = [] := by
      apply List.flatMap_eq_nil_iff.mpr
      intro pcp hpcp
      obtain ⟨hin, hout⟩ := h.parts pcp hpcp
      rw [partPointers, hin, hout, List.append_nil]
    simp [holders, hparts, h.threads, h.created]
  refine ⟨?_, ?_, hzero 0⟩
  · intro p
    rw [hzero p, h.pool]
    rfl
  · intro p
    rw [hzero p]
    decide

theorem balanced_of_accounted (h : Accounted s) : Balanced s where
  lock := fun p blk hblk => (Represents.present h hblk).1
  kept := by
    intro p hpos
    cases hblk : s.mainPool.blocksList[p]? with
    | none => exact absurd ((Represents.absent h).mp hblk) (Nat.ne_of_gt hpos)
    | some blk => exact ⟨blk, rfl⟩
  released := fun p hzero => (Represents.absent h).mpr hzero

/-- In a run of which each step keeps the balance, it holds in the state that is reached. -/
theorem balanced_along {events : List ComputeEvent} (hs : Initial s)
    (hmalloc : Along Computation.step Allocates s events)
    (hkeeps : Along Computation.step Keeps s events)
    (hrun : run Computation.step s events = .ok t) : Balanced t := by
  apply balanced_of_accounted
  refine run_along_invariant ?_ hs.accounted (hmalloc.and hkeeps) hrun
  intro s e t h hcond hstep
  exact accounted_step h hcond.1 hcond.2 hstep

def partName : Bytes := ascii ['f']

def sampleComputation : Computation where
  cparts := [{ name := partName, fargsIn := [⟨ascii ['i', 'n', 't'], 1⟩] }]

theorem sampleComputation_initial : Initial sampleComputation := by
  refine ⟨rfl, rfl, rfl, ?_⟩
  intro pcp hpcp
  obtain rfl := List.mem_singleton.mp hpcp
  exact ⟨rfl, rfl⟩

/-- One output, of four bytes. -/
def sampleFunc : PcsFunc := fun libargsIn _ => (0, libargsIn, [⟨4, [1, 2, 3, 4]⟩])

def balancedEvents : List ComputeEvent :=
  [.create 4 16, .newThread, .addArgs 0 partName 16, .addArgsOut 0 partName 16, .prepareArgsIn 0 0,
    .run 0 (some sampleFunc) [32], .giveUp 16, .clear 0, .destruct 0]

theorem balanced_along_balanced :
    ∃ t, run Computation.step sampleComputation balancedEvents = .ok t ∧ Balanced t := by
  have hok : (run Computation.step sampleComputation balancedEvents).isOk = true := by
    decide +kernel
  obtain ⟨t, ht⟩ := exists_of_isOk hok
  exact ⟨t, ht, balanced_along sampleComputation_initial (by decide +kernel) (by decide +kernel) ht⟩

/-- Somebody holds a block that the pool no longer has. -/
theorem not_balanced {r : Except Fault Computation} {p : Ptr} {n : Nat}
    (h : r.map (fun t => (t.mainPool.blocksList[p]?, holders t p)) = .ok (none, n + 1)) :
    ∃ t, r = .ok t ∧ ¬Balanced t := by
  cases r with
  | error e => cases h
  | ok t =>
    obtain ⟨hnone, hholders⟩ := Prod.mk.inj (Except.ok.inj h)
    refine ⟨t, rfl, ?_⟩
    intro hbalanced
    obtain ⟨blk, hblk⟩ := hbalanced.kept p (by omega)
    cases hnone.symm.trans hblk

/-- A destructor that releases a block its creator still holds, and an output that is released
while a thread holds it. -/
theorem not_balanced_destruct : (∃ t, run Computation.step sampleComputation
      [.create 4 16, .newThread, .addArgs 0 partName 16, .destruct 0] = .ok t ∧ ¬Balanced t) ∧
    ∃ t, run Computation.step sampleComputation
      [.create 4 16, .newThread, .addArgs 0 partName 16, .prepareArgsIn 0 0,
        .run 0 (some sampleFunc) [32], .getArgsOut 0 0, .clear 0] = .ok t ∧ ¬Balanced t := by
  constructor
  · apply @not_balanced _ 16 0
    decide +kernel
  · apply @not_balanced _ 32 0
    decide +kernel

end NetCpp.Proofs
