import NetCpp.CThread
import NetCpp.Proofs.Entries
import NetCpp.Library.Counts

namespace NetCpp.Proofs
open Library Library.Counts

/-- The locks of the pool are these numbers of holders, which an `int` can hold, no block is
protected and none is at `nullptr`. -/
structure Represents (pool : BlocksPool) (held : Ptr → Nat) : Prop where
  entry : ∀ p, (pool.blocksList[p]?).map (fun blk => (blk.lock, blk.pted)) =
    (counted (held p)).map (fun n : Nat => ((n : Int), false))
  max : ∀ p, held p < 2 ^ 31
  null : held 0 = 0

variable {pool pool' : BlocksPool} {held held' : Ptr → Nat} {p : Ptr}

theorem Represents.congr (h : Represents pool held) (heq : ∀ p, held p = held' p) :
    Represents pool held' := by
  rw [← funext heq]
  exact h

theorem Represents.absent (h : Represents pool held) : pool.blocksList[p]? = none ↔ held p = 0 := by
  have hp := h.entry p
  constructor
  · intro hnone
    rw [hnone] at hp
    exact counted_eq_none.mp (Option.map_eq_none_iff.mp hp.symm)
  · intro hzero
    rw [hzero] at hp
    exact Option.map_eq_none_iff.mp hp

theorem Represents.present {blk : BlockInfo} (h : Represents pool held)
    (hblk : pool.blocksList[p]? = some blk) : blk.lock = held p ∧ blk.pted = false ∧
    0 < held p := by
  have hp := h.entry p
  rw [hblk, Option.map_some] at hp
  obtain ⟨n, hn, heq⟩ := Option.map_eq_some_iff.mp hp.symm
  obtain ⟨rfl, hpos⟩ := counted_eq_some.mp hn
  obtain ⟨hlock, hpted⟩ := Prod.mk.inj heq
  exact ⟨hlock.symm, hpted.symm, hpos⟩

theorem Represents.notNull (h : Represents pool held) (hpos : 0 < held p) : p ≠ 0 := by
  intro heq
  rw [heq, h.null] at hpos
  exact Nat.lt_irrefl 0 hpos

/-- Two tables of the same pool are the same. -/
theorem Represents.unique (h : Represents pool held) (h' : Represents pool held') (p : Ptr) :
    held p = held' p := by
  apply counted_injective
  have heq := (h.entry p).symm.trans (h'.entry p)
  apply Option.map_injective _ heq
  intro n m hnm
  simpa using hnm

/-- What is held once more. -/
def more (held : Ptr → Nat) (p q : Ptr) : Nat := held q + if p = q then 1 else 0

/-- What is held once less, if it was held. -/
def less (held : Ptr → Nat) (p q : Ptr) : Nat := held q - if p = q then 1 else 0

/-- One entry changes, and with it one number. -/
theorem Represents.sets {entry : Option BlockInfo} {n : Nat} (h : Represents pool held)
    (hsets : Sets pool p entry pool')
    (hentry : entry.map (fun blk => (blk.lock, blk.pted)) =
      (counted n).map (fun n : Nat => ((n : Int), false)))
    (hmax : n < 2 ^ 31) (hnull : p = 0 → n = 0) : Represents pool' (Function.update held p n) := by
  refine ⟨?_, ?_, ?_⟩
  · intro q
    rw [hsets q]
    by_cases hq : p = q
    · subst hq
      rw [if_pos rfl, Function.update_self, hentry]
    · rw [if_neg hq, Function.update_of_ne (Ne.symm hq)]
      exact h.entry q
  · intro q
    rw [Function.update_apply]
    split
    · exact hmax
    · exact h.max q
  · rw [Function.update_apply]
    split
    · rename_i hp
      exact hnull hp.symm
    · exact h.null

/-- A block that is held `n` times. -/
theorem Represents.put {blk : BlockInfo} {n : Nat} (h : Represents pool held)
    (hsets : Sets pool p (some blk) pool') (hnull : p ≠ 0) (hlock : blk.lock = n)
    (hpted : blk.pted = false) (hn : 0 < n) (hmax : n < 2 ^ 31) :
    Represents pool' (Function.update held p n) := by
  have hcounted : counted n = some n := counted_eq_some.mpr ⟨rfl, hn⟩
  apply h.sets hsets _ hmax (fun hp => absurd hp hnull)
  rw [hcounted, Option.map_some, Option.map_some, hlock, hpted]

theorem Represents.remove (h : Represents pool held) (hsets : Sets pool p none pool') :
    Represents pool' (Function.update held p 0) :=
  h.sets hsets rfl (by decide) (fun _ => rfl)

theorem update_less (held : Ptr → Nat) (p q : Ptr) :
    Function.update held p (held p - 1) q = less held p q := by
  rw [Function.update_apply, less]
  by_cases hq : p = q
  · rw [if_pos hq.symm, if_pos hq, hq]
  · rw [if_neg (Ne.symm hq), if_neg hq, Nat.sub_zero]

theorem update_more (held : Ptr → Nat) (p q : Ptr) :
    Function.update held p (held p + 1) q = more held p q := by
  rw [Function.update_apply, more]
  by_cases hq : p = q
  · rw [if_pos hq.symm, if_pos hq, hq]
  · rw [if_neg (Ne.symm hq), if_neg hq, Nat.add_zero]

theorem Represents.bFree (h : Represents pool held) (p : Ptr) :
    Represents (pool.bFree p) (less held p) := by
  have hsets := @bFree_sets pool p
  rw [PoolCall.onEntry] at hsets
  have hmax := h.max p
  cases hblk : pool.blocksList[p]? with
  | none =>
    rw [hblk] at hsets
    apply (h.remove hsets).congr
    intro q
    rw [← update_less, h.absent.mp hblk]
  | some blk =>
    obtain ⟨hlock, hpted, hpos⟩ := h.present hblk
    have hwrap : (blk.lock - 1).bmod (2 ^ 32) = ((held p - 1 : Nat) : Int) := by
      rw [hlock, Int.bmod_eq_of_le (by omega) (by omega)]
      omega
    simp only [hblk, Option.bind_some, hpted, hwrap, Bool.false_eq_true, if_false] at hsets
    by_cases hlast : held p = 1
    · rw [if_pos (by omega)] at hsets
      apply (h.remove hsets).congr
      intro q
      rw [← update_less, hlast]
    · rw [if_neg (by omega)] at hsets
      have hput := h.put hsets (h.notNull hpos) rfl rfl (show 0 < held p - 1 by omega) (by omega)
      exact hput.congr (update_less held p)

theorem Represents.bFrees (h : Represents pool held) (ps : List Ptr) :
    Represents (pool.bFrees ps) (fun q => held q - ps.count q) := by
  induction ps generalizing pool held with
  | nil => exact h
  | cons p ps ih =>
    apply (ih (h.bFree p)).congr
    intro q
    rw [less, List.count_cons]
    by_cases hq : p = q
    · simp [hq]
      omega
    · simp [hq]

theorem Represents.take (h : Represents pool held) (hmax : held p + 1 < 2 ^ 31)
    (htake : pool.take p = .ok pool') : Represents pool' (more held p) := by
  have hsets := @bGet_sets pool p
  rw [PoolCall.onEntry] at hsets
  cases hblk : pool.blocksList[p]? with
  | none =>
    rw [BlocksPool.take, BlocksPool.bGet, hblk] at htake
    cases htake
  | some blk =>
    obtain ⟨hlock, hpted, hpos⟩ := h.present hblk
    have hnull := h.notNull hpos
    have hwrap : (blk.lock + 1).bmod (2 ^ 32) = ((held p + 1 : Nat) : Int) := by
      rw [hlock, Int.bmod_eq_of_le (by omega) (by omega)]
      omega
    have hfst : (pool.bGet p).1 = p := by
      rw [BlocksPool.bGet, hblk]
    rw [hblk, Option.map_some, hwrap] at hsets
    have hput := (h.put hsets hnull rfl hpted (Nat.succ_pos _) hmax).congr (update_more held p)
    simp only [BlocksPool.take, hfst, hnull, if_false, bind, Except.bind, pure,
      Except.pure] at htake
    cases htake
    exact hput

theorem Represents.takes (h : Represents pool held) {ps : List Ptr}
    (hmax : ∀ p ∈ ps, held p + ps.count p < 2 ^ 31)
    (hrun : run BlocksPool.take pool ps = .ok pool') :
    Represents pool' (fun q => held q + ps.count q) := by
  induction ps generalizing pool held with
  | nil =>
    cases hrun
    simpa using h
  | cons p ps ih =>
    obtain ⟨pool₁, htake, hrest⟩ := run_cons_inv hrun
    have hp := hmax p List.mem_cons_self
    rw [List.count_cons_self] at hp
    have hnext : ∀ q ∈ ps, more held p q + ps.count q < 2 ^ 31 := by
      intro q hq
      have hall := hmax q (List.mem_cons_of_mem p hq)
      rw [List.count_cons] at hall
      rw [more]
      by_cases heq : p = q
      · simp only [heq, BEq.rfl, if_true] at hall ⊢
        omega
      · simpa [heq] using hall
    apply (ih (h.take (by omega) htake) hnext hrest).congr
    intro q
    rw [more, List.count_cons]
    by_cases heq : p = q
    · simp [heq]
      omega
    · simp [heq]

/-- A block at an address that was not in use. -/
theorem Represents.allocate {blk : BlockInfo} (h : Represents pool held)
    (hsets : Sets pool p (some blk) pool') (hnull : p ≠ 0) (hfresh : pool.blocksList[p]? = none)
    (hlock : blk.lock = 1) (hpted : blk.pted = false) : Represents pool' (more held p) := by
  have hput := h.put hsets hnull hlock hpted Nat.one_pos (by decide)
  apply hput.congr
  intro q
  rw [← update_more, h.absent.mp hfresh]

theorem Represents.bMalloc {ptr : Ptr} (size : UInt32) (h : Represents pool held) (hnull : ptr ≠ 0)
    (hfresh : pool.blocksList[ptr]? = none) :
    ∃ pool', pool.bMalloc size ptr = (ptr, pool') ∧ Represents pool' (more held ptr) := by
  have hsets := @bMalloc_sets pool ptr size
  rw [PoolCall.onEntry, if_neg hnull, hfresh, bMalloc_of_ne hnull] at hsets
  exact ⟨_, bMalloc_of_ne hnull, h.allocate hsets hnull hfresh rfl rfl⟩

theorem Represents.bpMalloc {size : UInt32} {ptvle : Bytes} {ptr p : Ptr} (h : Represents pool held)
    (hfresh : pool.blocksList[ptr]? = none) (hm : pool.bpMalloc size ptvle ptr = .ok (p, pool')) :
    p = ptr ∧ Represents pool' (more held ptr) ∧
      ∀ q, pool'.blocksList[q]? = none ↔ q ≠ ptr ∧ pool.blocksList[q]? = none := by
  obtain ⟨rfl, hnull⟩ := bpMalloc_ptr hm
  have hsets := bpMalloc_sets hm
  rw [PoolCall.onEntry, if_neg hnull, hfresh] at hsets
  refine ⟨rfl, h.allocate hsets hnull hfresh rfl rfl, ?_⟩
  intro q
  rw [hsets q]
  by_cases hq : p = q
  · simp [hq]
  · simp [hq, Ne.symm hq]

/-- What holds of each pointer of a list, and is decided along the list. -/
def Each (ps : List Ptr) (P : Ptr → Prop) : Prop := ∀ p ∈ ps, P p

instance (ps : List Ptr) (P : Ptr → Prop) [DecidablePred P] : Decidable (Each ps P) :=
  List.decidableBAll P ps

/-- What `malloc` returns for several blocks: none of them is in use. -/
structure Fresh (pool : BlocksPool) (mallocs : List Ptr) : Prop where
  distinct : mallocs.Nodup
  unused : Each mallocs fun p => pool.blocksList[p]? = none

instance (pool : BlocksPool) (mallocs : List Ptr) : Decidable (Fresh pool mallocs) :=
  decidable_of_iff (mallocs.Nodup ∧ Each mallocs fun p => pool.blocksList[p]? = none)
    ⟨fun h => ⟨h.1, h.2⟩, fun h => ⟨h.distinct, h.unused⟩⟩

theorem Represents.pushArgs {argsOut argsOut' mallocs : List Ptr} {libargs : List LibArg}
    (h : Represents pool held) (hfresh : Fresh pool mallocs)
    (hpush : CPart.pushArgs pool argsOut mallocs libargs = .ok (pool', argsOut')) :
    ∃ new, argsOut' = argsOut ++ new ∧ Represents pool' (fun q => held q + new.count q) := by
  induction libargs generalizing pool held argsOut mallocs with
  | nil =>
    cases hpush
    exact ⟨[], by simp, h⟩
  | cons libarg libargs ih =>
    obtain ⟨⟨arg, pool₁⟩, hm, hrest⟩ := bind_ok hpush
    cases mallocs with
    | nil =>
      -- without a further result `malloc` has failed
      cases hm
    | cons ptr mallocs =>
      obtain ⟨hnot, hdistinct⟩ := List.nodup_cons.mp hfresh.distinct
      obtain ⟨rfl, hnew, hunused⟩ := h.bpMalloc (hfresh.unused ptr List.mem_cons_self) hm
      have hnext : Fresh pool₁ mallocs := by
        refine ⟨hdistinct, ?_⟩
        intro q hq
        rw [hunused]
        exact ⟨fun heq => hnot (heq ▸ hq), hfresh.unused q (List.mem_cons_of_mem _ hq)⟩
      obtain ⟨new, hargs, hend⟩ := ih hnew hnext hrest
      refine ⟨arg :: new, by simpa using hargs, hend.congr ?_⟩
      intro q
      rw [more, List.count_cons]
      by_cases hq : arg = q
      · simp [hq]
        omega
      · simp [hq]

end NetCpp.Proofs
