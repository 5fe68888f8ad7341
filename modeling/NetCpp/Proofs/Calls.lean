import NetCpp.Proofs.Blocks

namespace NetCpp.Proofs
open Library CPart

/-- The bytes of an argument are as many as its size says. -/
def SizedArg (a : LibArg) : Prop := a.pvle.length = a.size.toNat

/-- An entry function that leaves its list of inputs alone: whether it succeeds, and what it pushes
to its list of outputs. -/
structure Entry where
  success : List LibArg → List LibArg → Bool
  pushed : List LibArg → List LibArg → List LibArg
  sized : ∀ ins outs, ∀ a ∈ pushed ins outs, SizedArg a

def Entry.func (e : Entry) : PcsFunc := fun ins outs =>
  (if e.success ins outs then 0 else -1, ins, outs ++ e.pushed ins outs)

/-- One call: the pool as it finds it, the thread whose arguments are prepared, the entry function,
and what `malloc` returns for the outputs. -/
structure Call where
  pool : BlocksPool
  pct : CThread
  entry : Entry
  mallocs : List Ptr

/-- `PrepareArgsIn`, and then `Run`. -/
def Call.step (pcp : CPart) (c : Call) : Except Fault CPart := do
  let (pool, pcp) ← c.pct.prepareArgsIn c.pool pcp
  let (_, pcp, _) ← pcp.run pool (some c.entry.func) c.mallocs
  return pcp

/-- A pointer is to a block with this size and these bytes. -/
def HoldsArg (pool : BlocksPool) (p : Ptr) (a : LibArg) : Prop :=
  ∃ blk, pool.blocksList[p]? = some blk ∧ blk.size = a.size ∧ blk.memory = a.pvle

section
variable {pool pool' : BlocksPool} {args argsOut mallocs : List Ptr} {ins libargs : List LibArg}

theorem addArgPtr_ok {p : Ptr} {a : LibArg} (h : HoldsArg pool p a) (ha : SizedArg a)
    (hmax : a.size.toNat < 2 ^ 31) (before : List LibArg) :
    addArgPtr pool before p = .ok (before ++ [a]) := by
  obtain ⟨blk, hblk, hsize, hmemory⟩ := h
  simp only [addArgPtr, BlocksPool.find, hblk, hsize, hmemory, bind, Except.bind, readBytes_all ha,
    if_neg (Nat.not_le.mpr hmax)]
  rfl

theorem addArgPtr_large {p : Ptr} {a : LibArg} (h : HoldsArg pool p a)
    (hlarge : 2 ^ 31 ≤ a.size.toNat) (before : List LibArg) :
    addArgPtr pool before p = .error .nullPointer := by
  obtain ⟨blk, hblk, hsize, -⟩ := h
  simp only [addArgPtr, BlocksPool.find, hblk, hsize, bind, Except.bind, if_pos hlarge]
  rfl

/-- The inputs go behind what the list of the module holds. -/
theorem run_addArgPtr_ok (h : List.Forall₂ (HoldsArg pool) args ins)
    (hsized : ∀ a ∈ ins, SizedArg a) (hmax : ∀ a ∈ ins, a.size.toNat < 2 ^ 31)
    (before : List LibArg) : Library.run (addArgPtr pool) before args = .ok (before ++ ins) := by
  induction h generalizing before with
  | nil => rw [List.append_nil, run_nil]
  | @cons p a args ins hp _ ih =>
    rw [run_cons_ok
      (addArgPtr_ok hp (hsized a List.mem_cons_self) (hmax a List.mem_cons_self) before),
      ih (fun b hb => hsized b (List.mem_cons_of_mem a hb))
        (fun b hb => hmax b (List.mem_cons_of_mem a hb)),
      List.append_assoc, List.singleton_append]

theorem run_addArgPtr_inv (h : List.Forall₂ (HoldsArg pool) args ins)
    (hsized : ∀ a ∈ ins, SizedArg a) {before seen : List LibArg}
    (hrun : Library.run (addArgPtr pool) before args = .ok seen) :
    (∀ a ∈ ins, a.size.toNat < 2 ^ 31) ∧ seen = before ++ ins := by
  have hmax : ∀ a ∈ ins, a.size.toNat < 2 ^ 31 := by
    clear hsized
    induction h generalizing before with
    | nil => exact fun a ha => by cases ha
    | @cons p a args ins hp _ ih =>
      obtain ⟨t, hstep, hrest⟩ := run_cons_inv hrun
      have ha : a.size.toNat < 2 ^ 31 := by
        by_contra hlarge
        rw [addArgPtr_large hp (by omega)] at hstep
        cases hstep
      exact List.forall_mem_cons.mpr ⟨ha, ih hrest⟩
  refine ⟨hmax, ?_⟩
  rw [run_addArgPtr_ok h hsized hmax] at hrun
  exact (Except.ok.inj hrun).symm

/-- `malloc` gives memory for so many blocks, each at a new address. -/
structure Gives (pool : BlocksPool) (mallocs : List Ptr) (count : Nat) : Prop where
  fresh : Fresh pool mallocs
  notNull : 0 ∉ mallocs
  enough : count ≤ mallocs.length

theorem bpMalloc_ok {size : UInt32} {ptvle : Bytes} {ptr : Ptr} (hnull : ptr ≠ 0)
    (hfresh : pool.blocksList[ptr]? = none) (hsize : ptvle.length = size.toNat) :
    ∃ pool', pool.bpMalloc size ptvle ptr = .ok (ptr, pool') ∧ HoldsArg pool' ptr ⟨size, ptvle⟩ ∧
      ∀ q, q ≠ ptr → pool'.blocksList[q]? = pool.blocksList[q]? := by
  have hm : ∃ pool', pool.bpMalloc size ptvle ptr = .ok (ptr, pool') := by
    simp only [BlocksPool.bpMalloc, bMalloc_of_ne hnull, if_neg hnull, readBytes_all hsize, bind,
      Except.bind]
    exact ⟨_, rfl⟩
  obtain ⟨pool', hm⟩ := hm
  have hsets := bpMalloc_sets hm
  have htake : ptvle.take size.toNat = ptvle := by rw [← hsize, List.take_length]
  rw [PoolCall.onEntry, if_neg hnull, hfresh, htake] at hsets
  refine ⟨pool', hm, ⟨{ PoolCall.newBlock size with memory := ptvle }, ?_, rfl, rfl⟩, ?_⟩
  · rw [hsets ptr, if_pos rfl]
    rfl
  · intro q hq
    rw [hsets q, if_neg (Ne.symm hq)]

/-- The outputs are stored, in order, each in a block of its own. -/
theorem pushArgs_ok (hg : Gives pool mallocs libargs.length) (hsized : ∀ a ∈ libargs, SizedArg a)
    (argsOut : List Ptr) : ∃ pool' new, pushArgs pool argsOut mallocs libargs =
      .ok (pool', argsOut ++ new) ∧ List.Forall₂ (HoldsArg pool') new libargs ∧
      ∀ q, q ∉ mallocs → pool'.blocksList[q]? = pool.blocksList[q]? := by
  induction libargs generalizing pool argsOut mallocs with
  | nil =>
    refine ⟨pool, [], ?_, List.Forall₂.nil, fun _ _ => rfl⟩
    rw [pushArgs, List.append_nil]
  | cons a libargs ih =>
    cases mallocs with
    | nil =>
      have henough := hg.enough
      simp at henough
    | cons ptr mallocs =>
      obtain ⟨hnull, hnulls⟩ := List.ne_and_not_mem_of_not_mem_cons hg.notNull
      obtain ⟨hnot, hdistinct⟩ := List.nodup_cons.mp hg.fresh.distinct
      have hunused := hg.fresh.unused ptr List.mem_cons_self
      obtain ⟨pool₁, hm, hholds, hsame⟩ :=
        bpMalloc_ok hnull.symm hunused (hsized a List.mem_cons_self)
      have hnext : Gives pool₁ mallocs libargs.length := by
        refine ⟨⟨hdistinct, ?_⟩, hnulls, Nat.le_of_succ_le_succ hg.enough⟩
        intro q hq
        have hne : q ≠ ptr := fun heq => hnot (heq ▸ hq)
        rw [hsame q hne]
        exact hg.fresh.unused q (List.mem_cons_of_mem ptr hq)
      obtain ⟨pool', new, hpush, hnew, hkept⟩ :=
        ih hnext (fun b hb => hsized b (List.mem_cons_of_mem a hb)) (argsOut ++ [ptr])
      refine ⟨pool', ptr :: new, ?_, List.Forall₂.cons ?_ hnew, ?_⟩
      · simp only [pushArgs, List.headD_cons, List.tail_cons, hm, bind, Except.bind]
        rw [hpush, List.append_assoc, List.singleton_append]
      · obtain ⟨blk, hblk, hsize, hmemory⟩ := hholds
        exact ⟨blk, (hkept ptr hnot).trans hblk, hsize, hmemory⟩
      · intro q hq
        obtain ⟨hne, hq⟩ := List.ne_and_not_mem_of_not_mem_cons hq
        rw [hkept q hq, hsame q hne]

end

/-- The arguments of a call are prepared: there are as many as the part expects, all of them blocks
of the pool with their bytes. -/
structure Ready (pcp : CPart) (c : Call) (pool₁ : BlocksPool) (pcp₁ : CPart) (ins : List LibArg) :
    Prop where
  prepared : c.pct.prepareArgsIn c.pool pcp = .ok (pool₁, pcp₁)
  matching : pcp₁.argsIn.length = pcp₁.fargsIn.length
  blocks : List.Forall₂ (HoldsArg pool₁) pcp₁.argsIn ins
  sized : ∀ a ∈ ins, SizedArg a
  gives : Gives pool₁ c.mallocs
    (pcp.libargsOut ++ c.entry.pushed (pcp.libargsIn ++ ins) pcp.libargsOut).length

section
variable {pcp pcp₁ pcp₂ : CPart} {c : Call} {pool₁ pool₂ : BlocksPool} {ins : List LibArg}
  {rtn : Int}

/-- `Clear` takes the old outputs away, and the lists of the module stay. -/
theorem prepareArgsIn_part {pct : CThread} {pool : BlocksPool}
    (h : pct.prepareArgsIn pool pcp = .ok (pool₁, pcp₁)) :
    pcp₁.libargsIn = pcp.libargsIn ∧ pcp₁.libargsOut = pcp.libargsOut ∧ pcp₁.fargsIn = pcp.fargsIn ∧
      pcp₁.argsOut = [] := by
  obtain ⟨args, -, h⟩ := bind_ok h
  obtain ⟨pool', -, h⟩ := bind_ok h
  obtain ⟨-, rfl⟩ := Prod.mk.inj (Except.ok.inj h)
  exact ⟨rfl, rfl, rfl, rfl⟩

/-- What `Run` does once the inputs are in the list of the module. -/
theorem run_called (h : Ready pcp c pool₁ pcp₁ ins) (hlibs : ∀ a ∈ pcp.libargsOut, SizedArg a)
    (hmax : ∀ a ∈ ins, a.size.toNat < 2 ^ 31) : ∃ pool₂ pcp₂ rtn,
      pcp₁.run pool₁ (some c.entry.func) c.mallocs = .ok (pool₂, pcp₂, rtn) ∧
      pcp₂.libargsIn = pcp.libargsIn ++ ins ∧ pcp₂.fargsIn = pcp.fargsIn ∧
      if c.entry.success (pcp.libargsIn ++ ins) pcp.libargsOut = true then
        rtn = 0 ∧ pcp₂.libargsOut = [] ∧ List.Forall₂ (HoldsArg pool₂) pcp₂.argsOut
          (pcp.libargsOut ++ c.entry.pushed (pcp.libargsIn ++ ins) pcp.libargsOut)
      else
        rtn = -1 ∧ pcp₂.libargsOut =
          pcp.libargsOut ++ c.entry.pushed (pcp.libargsIn ++ ins) pcp.libargsOut := by
  obtain ⟨hin, hout, hfargs, hargsOut⟩ := prepareArgsIn_part h.prepared
  have hadd := run_addArgPtr_ok h.blocks h.sized hmax pcp.libargsIn
  have hmatch : ¬pcp₁.argsIn.length ≠ pcp₁.fargsIn.length := fun hne => hne h.matching
  have hpushed := c.entry.sized (pcp.libargsIn ++ ins) pcp.libargsOut
  simp only [CPart.run, if_neg hmatch, hadd, Entry.func, hin, hout, bind, Except.bind]
  cases c.entry.success (pcp.libargsIn ++ ins) pcp.libargsOut with
  | false =>
    exact ⟨pool₁, { pcp₁ with
      libargsIn := pcp.libargsIn ++ ins
      libargsOut := pcp.libargsOut ++ c.entry.pushed (pcp.libargsIn ++ ins) pcp.libargsOut }, -1,
      rfl, rfl, hfargs, rfl, rfl⟩
  | true =>
    obtain ⟨pool₂, new, hpush, hnew, -⟩ := pushArgs_ok h.gives
      (fun a ha => (List.mem_append.mp ha).elim (hlibs a) (hpushed a)) []
    rw [List.nil_append] at hpush
    simp only [if_true, hargsOut, hpush]
    exact ⟨pool₂, { pcp₁ with libargsIn := pcp.libargsIn ++ ins, libargsOut := [], argsOut := new },
      0, rfl, rfl, hfargs, rfl, rfl, hnew⟩

theorem run_max (h : Ready pcp c pool₁ pcp₁ ins)
    (hrun : pcp₁.run pool₁ (some c.entry.func) c.mallocs = .ok (pool₂, pcp₂, rtn)) :
    ∀ a ∈ ins, a.size.toNat < 2 ^ 31 := by
  have hmatch : ¬pcp₁.argsIn.length ≠ pcp₁.fargsIn.length := fun hne => hne h.matching
  simp only [CPart.run, if_neg hmatch] at hrun
  obtain ⟨seen, hadd, -⟩ := bind_ok hrun
  exact (run_addArgPtr_inv h.blocks h.sized hadd).1

end

/-- The entry function is given the inputs of this call, and after a success the outputs of the
part are what it pushed. -/
def GivenOwn (pcp : CPart) (c : Call) : Prop :=
  ∀ pool₁ pcp₁ ins, Ready pcp c pool₁ pcp₁ ins → ∃ pool₂ pcp₂ rtn,
    pcp₁.run pool₁ (some c.entry.func) c.mallocs = .ok (pool₂, pcp₂, rtn) ∧ pcp₂.libargsIn = ins ∧
    (rtn = 0 → List.Forall₂ (HoldsArg pool₂) pcp₂.argsOut (c.entry.pushed ins pcp.libargsOut))

/-- Nothing is left in the module's list of inputs, nor, if this call succeeds, in its list of
outputs; and the sizes are positive as an `int`. -/
def Unspoilt (pcp : CPart) (c : Call) : Prop :=
  ∀ pool₁ pcp₁ ins, Ready pcp c pool₁ pcp₁ ins → pcp.libargsIn = [] ∧
    (∀ a ∈ ins, a.size.toNat < 2 ^ 31) ∧
      (c.entry.success ins pcp.libargsOut = true → pcp.libargsOut = [])

/-- What has been pushed and not taken is whole. -/
def SizedOut (pcp : CPart) : Prop := ∀ a ∈ pcp.libargsOut, SizedArg a

theorem givenOwn_iff {pcp : CPart} (hlibs : SizedOut pcp) (c : Call) :
    GivenOwn pcp c ↔ Unspoilt pcp c := by
  constructor
  · intro h pool₁ pcp₁ ins hready
    obtain ⟨pool₂, pcp₂, rtn, hrun, hseen, houts⟩ := h pool₁ pcp₁ ins hready
    have hmax := run_max hready hrun
    obtain ⟨pool₃, pcp₃, rtn', hrun', hin, -, hrest⟩ := run_called hready hlibs hmax
    cases hrun.symm.trans hrun'
    have hempty : pcp.libargsIn = [] := by
      rw [hseen] at hin
      exact List.self_eq_append_left.mp hin
    refine ⟨hempty, hmax, ?_⟩
    intro hsuccess
    rw [hempty, List.nil_append, if_pos hsuccess] at hrest
    obtain ⟨hrtn, -, hall⟩ := hrest
    have hlen := (houts hrtn).length_eq.symm.trans hall.length_eq
    rw [List.length_append] at hlen
    apply List.length_eq_zero_iff.mp
    omega
  · intro h pool₁ pcp₁ ins hready
    obtain ⟨hempty, hmax, hout⟩ := h pool₁ pcp₁ ins hready
    obtain ⟨pool₂, pcp₂, rtn, hrun, hin, -, hrest⟩ := run_called hready hlibs hmax
    rw [hempty, List.nil_append] at hin hrest
    refine ⟨pool₂, pcp₂, rtn, hrun, hin, ?_⟩
    intro hrtn
    split at hrest
    · rename_i hsuccess
      obtain ⟨-, -, hall⟩ := hrest
      rw [hout hsuccess] at hall ⊢
      exact hall
    · obtain ⟨hfail, -⟩ := hrest
      omega

theorem addArgPtr_length {pool : BlocksPool} {p : Ptr} {before t : List LibArg}
    (h : addArgPtr pool before p = .ok t) : t.length = before.length + 1 := by
  obtain ⟨blk, -, h⟩ := bind_ok h
  dsimp only at h
  split at h
  · cases h
  · obtain ⟨r, -, h⟩ := bind_ok h
    obtain rfl := Except.ok.inj h
    rw [List.length_append, List.length_singleton]

theorem run_addArgPtr_length {pool : BlocksPool} {args : List Ptr} {before seen : List LibArg}
    (h : Library.run (addArgPtr pool) before args = .ok seen) :
    seen.length = before.length + args.length := by
  induction args generalizing before with
  | nil =>
    obtain rfl := Except.ok.inj h
    rfl
  | cons p args ih =>
    obtain ⟨t, hstep, hrest⟩ := run_cons_inv h
    rw [ih hrest, addArgPtr_length hstep, List.length_cons]
    omega

/-- What a call leaves: its inputs behind the earlier ones, and outputs that are whole. -/
theorem step_keeps {pcp t : CPart} {c : Call} (h : Call.step pcp c = .ok t) :
    t.libargsIn.length = pcp.libargsIn.length + pcp.fargsIn.length ∧ t.fargsIn = pcp.fargsIn ∧
      (SizedOut pcp → SizedOut t) := by
  obtain ⟨⟨pool₁, pcp₁⟩, hprepare, h⟩ := bind_ok h
  obtain ⟨⟨pool₂, pcp₂, rtn⟩, hrun, h⟩ := bind_ok h
  obtain rfl := Except.ok.inj h
  obtain ⟨hin, hout, hfargs, -⟩ := prepareArgsIn_part hprepare
  simp only [CPart.run] at hrun
  split at hrun
  · cases hrun
  · rename_i hmatch
    obtain ⟨seen, hadd, hrun⟩ := bind_ok hrun
    have hlen := run_addArgPtr_length hadd
    rw [hin, not_not.mp hmatch, hfargs] at hlen
    dsimp only [Entry.func] at hrun
    split at hrun
    · obtain ⟨⟨pool₃, argsOut⟩, -, hrun⟩ := bind_ok hrun
      cases hrun
      exact ⟨hlen, hfargs, fun _ a ha => by cases ha⟩
    · cases hrun
      refine ⟨hlen, hfargs, ?_⟩
      intro hs a ha
      rcases List.mem_append.mp ha with ha | ha
      · rw [hout] at ha
        exact hs a ha
      · exact c.entry.sized _ _ a ha

/-- The module's list of inputs grows with every call. -/
theorem run_libargsIn {name : Bytes} {fargsIn : List FargInfo} {calls : List Call} {t : CPart}
    (h : Library.run Call.step { name, fargsIn } calls = .ok t) :
    t.libargsIn.length = calls.length * fargsIn.length := by
  have hstep : ∀ past c rest s t, calls = past ++ c :: rest →
      (s.libargsIn.length = past.length * fargsIn.length ∧ s.fargsIn = fargsIn) →
        Call.step s c = .ok t →
      t.libargsIn.length = (past ++ [c]).length * fargsIn.length ∧ t.fargsIn = fargsIn := by
    rintro past c rest s t - ⟨hlen, hfargs⟩ hstep
    obtain ⟨hnext, hsame, -⟩ := step_keeps hstep
    rw [hnext, hsame, hlen, hfargs, List.length_append, List.length_singleton, Nat.add_mul,
      Nat.one_mul]
    exact ⟨rfl, rfl⟩
  have hstart : ([] : List LibArg).length = ([] : List Call).length * fargsIn.length := by
    rw [List.length_nil, List.length_nil, Nat.zero_mul]
  exact (run_history hstep (List.nil_append calls).symm ⟨hstart, rfl⟩ h).1

/-- In a run of calls each is given its own just if the lists of the module are unspoilt, which the
list of inputs is not after the first call that had any. -/
theorem givenOwn_along (name : Bytes) (fargsIn : List FargInfo) (calls : List Call) :
    (Along Call.step GivenOwn { name, fargsIn } calls ↔
      Along Call.step Unspoilt { name, fargsIn } calls) ∧
    ∀ t, Library.run Call.step { name, fargsIn } calls = .ok t →
      t.libargsIn.length = calls.length * fargsIn.length := by
  refine ⟨?_, fun t h => run_libargsIn h⟩
  refine along_congr (fun _ _ _ hs hstep => (step_keeps hstep).2.2 hs)
    (fun _ c hs => givenOwn_iff hs c) ?_
  intro a ha
  cases ha

/-- An entry function that does nothing. -/
def idle : Entry where
  success _ _ := true
  pushed _ _ := []
  sized := by
    intro ins outs a ha
    cases ha

/-- A thread with one block of one byte for the part, which others hold too. -/
def oneByte : Call where
  pool := ⟨Std.TreeMap.insert ∅ 1 { size := 1, lock := 5, pted := false, memory := [9] }⟩
  pct := { rargs := [([112], [1])], rargsOut := [([112], [])] }
  entry := idle
  mallocs := []

def onePart : CPart := { name := [112], fargsIn := [{ type := [105] }] }

/-- The part after the call. -/
def calledPart : CPart := { onePart with argsIn := [1], libargsIn := [⟨1, [9]⟩] }

/-- The part after the second call. -/
def calledAgain : CPart := { calledPart with libargsIn := [⟨1, [9]⟩, ⟨1, [9]⟩] }

theorem givenOwn_along_sample :
    (Along Call.step GivenOwn onePart [oneByte, oneByte] ↔
      Along Call.step Unspoilt onePart [oneByte, oneByte]) ∧
      calledAgain.libargsIn.length = [oneByte, oneByte].length * onePart.fargsIn.length :=
  have h := givenOwn_along [112] [{ type := [105] }] [oneByte, oneByte]
  ⟨h.1, h.2 calledAgain (by decide +kernel)⟩

/-- The second call is given the input of the first one too. -/
theorem not_givenOwn_again : Call.step onePart oneByte = .ok calledPart ∧
    Call.step calledPart oneByte = .ok calledAgain ∧
    ¬Along Call.step GivenOwn onePart [oneByte, oneByte] := by
  have hfirst : Call.step onePart oneByte = .ok calledPart := by decide +kernel
  have hsecond : Call.step calledPart oneByte = .ok calledAgain := by decide +kernel
  refine ⟨hfirst, hsecond, ?_⟩
  intro h
  have hown := (h.tail hfirst).1
  have hok : (oneByte.pct.prepareArgsIn oneByte.pool calledPart).isOk = true := by decide +kernel
  obtain ⟨⟨pool₁, pcp₁⟩, hprepared⟩ := exists_of_isOk hok
  have hpart : (oneByte.pct.prepareArgsIn oneByte.pool calledPart).map Prod.snd =
      .ok calledPart := by
    decide +kernel
  have hblock : (oneByte.pct.prepareArgsIn oneByte.pool calledPart).map
      (fun r => (r.1.blocksList[(1 : Ptr)]?).map fun blk => (blk.size, blk.memory)) =
      .ok (some (1, [9])) := by decide +kernel
  rw [hprepared] at hpart hblock
  obtain rfl : pcp₁ = calledPart := Except.ok.inj hpart
  obtain ⟨blk, hblk, hvalue⟩ := Option.map_eq_some_iff.mp (Except.ok.inj hblock)
  obtain ⟨hsize, hmemory⟩ := Prod.mk.inj hvalue
  have hready : Ready calledPart oneByte pool₁ calledPart [⟨1, [9]⟩] := by
    refine ⟨hprepared, rfl, ?_, ?_, ?_⟩
    · exact List.Forall₂.cons ⟨blk, hblk, hsize, hmemory⟩ List.Forall₂.nil
    · intro a ha
      obtain rfl := List.mem_singleton.mp ha
      rfl
    · refine ⟨⟨List.nodup_nil, ?_⟩, List.not_mem_nil, Nat.le_refl 0⟩
      intro p hp
      cases hp
  obtain ⟨pool₂, pcp₂, rtn, hrun, hseen, -⟩ := hown _ _ _ hready
  have hstep : Call.step calledPart oneByte = .ok pcp₂ := by
    simp only [Call.step, hprepared, hrun, bind, Except.bind]
    rfl
  obtain rfl := Except.ok.inj (hsecond.symm.trans hstep)
  exact absurd hseen (by decide)

end NetCpp.Proofs
