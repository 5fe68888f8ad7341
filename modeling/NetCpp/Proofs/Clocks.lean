import NetCpp.Library.Places
import NetCpp.Library.Queues
import NetCpp.Clock

namespace NetCpp.Proofs
open Library Clocks

section
variable {α : Type}

/-- How often a clock has started its thread, and what is left of it. -/
structure Alone (α : Type) where
  starts : Nat := 0
  clock : Option (ClockRegister α)

/-- The thread that a tick starts. -/
def called (clock : Option (ClockRegister α)) : Option α :=
  clock.bind fun c => if (tickClock c).1 then some c.call else none

def Alone.tick (a : Alone α) : Alone α where
  starts := a.starts + if (called a.clock).isSome then 1 else 0
  clock := a.clock.bind fun c => (tickClock c).2

/-- A clock after so many ticks. -/
def alone (c : ClockRegister α) : Nat → Alone α
  | 0 => { clock := some c }
  | n + 1 => (alone c n).tick

/-- How often a clock should have started its thread. -/
def starts (c : ClockRegister α) (n : Nat) : Int :=
  if (n : Int) ≤ c.click then 0
  else if c.ifReset then 1 + (n - c.click - 1) / (c.rawclick + 1)
  else 1

/-- A clock that runs for the first time, or as a resettable one for another time, or that has run
down. -/
inductive Runs (c : ClockRegister α) (n : Nat) (a : Alone α) : Prop where
  | first (d : ClockRegister α) (hn : (n : Int) ≤ c.click)
      (hd : d = { c with click := c.click - n })
    (ha : a = { starts := 0, clock := some d })
  | again (d : ClockRegister α) (q : Nat) (e : Int) (hreset : c.ifReset = true)
    (hn : (n : Int) = c.click + 1 + q * (c.rawclick + 1) + e) (he : 0 ≤ e ∧ e ≤ c.rawclick)
    (hd : d = { c with ifThread := true, click := c.rawclick - e })
    (ha : a = { starts := q + 1, clock := some d })
  | down (hreset : c.ifReset = false) (hn : c.click < n) (ha : a = { starts := 1, clock := none })

theorem tick_wait {d : ClockRegister α} (h : 0 < d.click) (k : Nat) :
    Alone.tick { starts := k, clock := some d } =
      { starts := k, clock := some { d with click := d.click - 1 } } := by
  have hne : d.click ≠ 0 := by omega
  simp [Alone.tick, called, tickClock, hne, h]

theorem tick_reset {d : ClockRegister α} (h : d.click = 0) (hreset : d.ifReset = true) (k : Nat) :
    Alone.tick { starts := k, clock := some d } =
      { starts := k + 1, clock := some { d with ifThread := true, click := d.rawclick } } := by
  simp [Alone.tick, called, tickClock, h, hreset]

theorem tick_down {d : ClockRegister α} (h : d.click = 0) (hreset : d.ifReset = false) (k : Nat) :
    Alone.tick { starts := k, clock := some d } = { starts := k + 1, clock := none } := by
  simp [Alone.tick, called, tickClock, h, hreset]

/-- The induction is on the ticks; `e` are the ticks since the last start. -/
theorem alone_runs {c : ClockRegister α} (hclick : 0 ≤ c.click) (hraw : 0 ≤ c.rawclick) (n : Nat) :
    Runs c n (alone c n) := by
  induction n with
  | zero => exact .first c hclick (by simp) rfl
  | succ n ih =>
    rw [alone]
    cases ih with
    | first d hn hd ha =>
      rw [ha]
      by_cases hlast : (n : Int) = c.click
      · have hzero : d.click = 0 := by
          rw [hd]
          simp [hlast]
        cases hreset : c.ifReset with
        | true =>
          rw [tick_reset hzero (by rw [hd]; exact hreset)]
          refine .again _ 0 0 hreset (by push_cast; omega) ⟨Int.le_refl 0, hraw⟩ ?_ rfl
          rw [hd, Int.sub_zero]
        | false =>
          rw [tick_down hzero (by rw [hd]; exact hreset)]
          exact .down hreset (by push_cast; omega) rfl
      · have hpos : 0 < d.click := by
          rw [hd]
          dsimp only
          omega
        rw [tick_wait hpos]
        refine .first _ (by push_cast; omega) ?_ rfl
        rw [hd]
        congr 1
        push_cast
        omega
    | again d q e hreset hn he hd ha =>
      rw [ha]
      by_cases hlast : e = c.rawclick
      · have hzero : d.click = 0 := by
          rw [hd]
          simp [hlast]
        rw [tick_reset hzero (by rw [hd]; exact hreset)]
        refine .again _ (q + 1) 0 hreset ?_ ⟨Int.le_refl 0, hraw⟩ ?_ rfl
        · push_cast
          rw [hn, hlast]
          ring
        · rw [hd, Int.sub_zero]
      · have hpos : 0 < d.click := by
          rw [hd]
          dsimp only
          omega
        rw [tick_wait hpos]
        refine .again _ q (e + 1) hreset (by push_cast; omega) (by omega) ?_ rfl
        rw [hd]
        congr 1
        dsimp only
        omega
    | down hreset hn ha =>
      rw [ha]
      exact .down hreset (by push_cast; omega) rfl

theorem alone_starts {c : ClockRegister α} (hclick : 0 ≤ c.click) (hraw : 0 ≤ c.rawclick)
    (n : Nat) : ((alone c n).starts : Int) = starts c n := by
  rw [starts]
  cases alone_runs hclick hraw n with
  | first d hn hd ha => rw [ha, if_pos hn, Nat.cast_zero]
  | again d q e hreset hn he hd ha =>
    have hlate : ¬(n : Int) ≤ c.click := by
      have hq : 0 ≤ (q : Int) * (c.rawclick + 1) := by positivity
      omega
    have hdiv : ((n : Int) - c.click - 1) / (c.rawclick + 1) = q := by
      rw [show (n : Int) - c.click - 1 = e + q * (c.rawclick + 1) by omega,
        Int.add_mul_ediv_right _ _ (by omega), Int.ediv_eq_zero_of_lt he.1 (by omega), Int.zero_add]
    rw [ha, if_neg hlate, if_pos hreset, hdiv]
    push_cast
    omega
  | down hreset hn ha =>
    rw [ha, if_neg (by omega), if_neg (by rw [hreset]; exact Bool.false_ne_true), Nat.cast_one]

theorem tickClock_call {c d : ClockRegister α} (h : (tickClock c).2 = some d) :
    d.call = c.call := by
  dsimp only [tickClock] at h
  split_ifs at h
  all_goals
    cases h
    rfl

theorem alone_call {c d : ClockRegister α} {n : Nat} (h : (alone c n).clock = some d) :
    d.call = c.call := by
  induction n generalizing d with
  | zero =>
    cases h
    rfl
  | succ n ih =>
    obtain ⟨e, he, hd⟩ := Option.bind_eq_some_iff.mp h
    exact (tickClock_call hd).trans (ih he)

end

section
variable {α : Type}

def isNew : ClockEvent α → Bool
  | .newClock _ => true
  | _ => false

def isTick : ClockEvent α → Bool
  | .threadsClock => true
  | _ => false

/-- The clocks that have been registered, each with the ticks since then. -/
def age (old : List (ClockRegister α × Nat)) : ClockEvent α → List (ClockRegister α × Nat)
  | .newClock c => old ++ [(c, 0)]
  | .clockThreadFinish _ => old
  | .threadsClock => old.map fun p => (p.1, p.2 + 1)

def ages (events : List (ClockEvent α)) : List (ClockRegister α × Nat) := events.foldl age []

theorem ages_append (past : List (ClockEvent α)) (e : ClockEvent α) :
    ages (past ++ [e]) = age (ages past) e := by
  rw [ages, List.foldl_append]
  rfl

theorem length_ages (events : List (ClockEvent α)) :
    (ages events).length = events.countP isNew := by
  induction events using List.reverseRecOn with
  | nil => rfl
  | append_singleton events e ih =>
    rw [ages_append, List.countP_append, ← ih]
    cases e <;> simp [age, isNew]

/-- A clock keeps its place, and gets older with each tick. -/
theorem getElem?_foldl_age {old : List (ClockRegister α × Nat)} {i : Nat}
    {c : ClockRegister α} {n : Nat} (h : old[i]? = some (c, n)) (after : List (ClockEvent α)) :
    (after.foldl age old)[i]? = some (c, n + after.countP isTick) := by
  induction after generalizing old n with
  | nil => exact h
  | cons e after ih =>
    rw [List.foldl_cons, List.countP_cons]
    cases e with
    | newClock d =>
      have hlt := (List.getElem?_eq_some_iff.mp h).1
      exact ih (by rwa [age, List.getElem?_append_left hlt])
    | clockThreadFinish tid => exact ih h
    | threadsClock =>
      rw [ih (n := n + 1) (by rw [age, List.getElem?_map, h]; rfl)]
      simp [isTick]
      omega

theorem getElem?_ages (before after : List (ClockEvent α)) (c : ClockRegister α) :
    (ages (before ++ .newClock c :: after))[before.countP isNew]? =
      some (c, after.countP isTick) := by
  have hnew : (ages (before ++ [.newClock c]))[before.countP isNew]? = some (c, 0) := by
    rw [ages_append, age, ← length_ages, List.getElem?_concat_length]
  have hall := getElem?_foldl_age hnew after
  rwa [Nat.zero_add, ages, ← List.foldl_append, List.append_assoc, List.singleton_append] at hall

def clockOf (p : ClockRegister α × Nat) : Option (ClockRegister α) := (alone p.1 p.2).clock

def startsOf (p : ClockRegister α × Nat) : Nat := (alone p.1 p.2).starts

/-- What is there of the list is what each clock would be on its own. -/
structure Scheduled (past : List (ClockEvent α)) (s : Clocks α) : Prop where
  registered : s.registered = (ages past).length
  clocks : s.clocksList.reduceOption = placed clockOf (ages past)
  started : ∀ i, (s.started.map Prod.fst).count i = ((ages past)[i]?.map startsOf).getD 0
  calls : ∀ q ∈ s.started, (ages past)[q.1]?.map (fun p => p.1.call) = some q.2

/-- The threads that have reported their end, each once, are on the map. -/
structure Joinable (s : Clocks α) : Prop where
  nodup : s.clockThreadFinished.Nodup
  running : ∀ tid ∈ s.clockThreadFinished, s.clocksThreadMap.contains tid = true

theorem tickAll_spec (clocks : List (Option (Nat × ClockRegister α))) (s : Clocks α) :
    (tickAll clocks s).1.reduceOption =
      clocks.reduceOption.filterMap (fun q => (tickClock q.2).2.map (q.1, ·)) ∧
    (tickAll clocks s).2.started = s.started ++
      clocks.reduceOption.filterMap (fun q => (called (some q.2)).map (q.1, ·)) ∧
    (tickAll clocks s).2.registered = s.registered ∧
    (tickAll clocks s).2.clockThreadFinished = s.clockThreadFinished := by
  induction clocks generalizing s with
  | nil => simp [tickAll]
  | cons clock clocks ih =>
    cases clock with
    | none =>
      simp only [tickAll, List.reduceOption_cons_of_none]
      exact ih s
    | some p =>
      obtain ⟨i, c⟩ := p
      obtain ⟨hclocks, hstarted, hregistered, hfinished⟩ :=
        ih (if (tickClock c).1 then s.createThread i c.call else s)
      simp only [tickAll, List.reduceOption_cons_of_some, List.filterMap_cons, called,
        Option.bind_some]
      refine ⟨?_, ?_, ?_, ?_⟩
      · cases hleft : (tickClock c).2 with
        | none => simpa using hclocks
        | some d => simpa using hclocks
      · rw [hstarted]
        cases hstart : (tickClock c).1 with
        | true => simp [createThread, called]
        | false => simp [called]
      · rw [hregistered]
        split <;> rfl
      · rw [hfinished]
        split <;> rfl

theorem joinThreads_ok {tids : List UInt32} {threads : Std.TreeMap UInt32 α} (hnodup : tids.Nodup)
    (hrunning : ∀ tid ∈ tids, threads.contains tid = true) : ∃ rest, joinThreads tids threads =
      .ok rest := by
  induction tids generalizing threads with
  | nil => exact ⟨threads, rfl⟩
  | cons tid tids ih =>
    obtain ⟨hnew, hnodup⟩ := List.nodup_cons.mp hnodup
    obtain ⟨hfirst, hrest⟩ := List.forall_mem_cons.mp hrunning
    rw [joinThreads, if_pos hfirst]
    refine ih hnodup fun later hlater => ?_
    have hne : tid ≠ later := by
      rintro rfl
      exact hnew hlater
    simp [Std.TreeMap.contains_erase, hrest later hlater, hne]

theorem clean_spec (s : Clocks α) :
    (clean s).clocksList.reduceOption = s.clocksList.reduceOption ∧ (clean s).started = s.started ∧
      (clean s).registered = s.registered ∧
      (clean s).clockThreadFinished = s.clockThreadFinished := by
  rw [clean]
  split
  · exact ⟨reduceOption_filter s.clocksList, rfl, rfl, rfl⟩
  · exact ⟨rfl, rfl, rfl, rfl⟩

/-- What a tick does, whatever is nulled, removed or kept in the list. -/
theorem threadsClock_spec {s t : Clocks α} (h : s.threadsClock = .ok t) :
    t.clocksList.reduceOption =
      s.clocksList.reduceOption.filterMap (fun q => (tickClock q.2).2.map (q.1, ·)) ∧
    t.started = s.started ++
      s.clocksList.reduceOption.filterMap (fun q => (called (some q.2)).map (q.1, ·)) ∧
    t.registered = s.registered ∧ t.clockThreadFinished = [] := by
  obtain ⟨threads, -, hrest⟩ := bind_ok h
  cases hrest
  let joined : Clocks α := { s with clocksThreadMap := threads, clockThreadFinished := [] }
  obtain ⟨hclocks, hstarted, hregistered, hfinished⟩ :=
    tickAll_spec (clean joined).clocksList (clean joined)
  obtain ⟨hclean, hcleanStarted, hcleanRegistered, hcleanFinished⟩ := clean_spec joined
  rw [hclean] at hclocks hstarted
  exact ⟨hclocks, hstarted.trans (congrArg (· ++ _) hcleanStarted),
    hregistered.trans hcleanRegistered, hfinished.trans hcleanFinished⟩

theorem Scheduled.newClock {past : List (ClockEvent α)} {s : Clocks α} (h : Scheduled past s)
    (c : ClockRegister α) : Scheduled (past ++ [.newClock c]) (s.newClock c) where
  registered := by
    rw [ages_append, age, List.length_append, List.length_singleton, ← h.registered]
    rfl
  clocks := by
    rw [ages_append, age, placed_concat, ← h.clocks, ← h.registered]
    exact List.reduceOption_append _ _
  started i := by
    rw [ages_append, age]
    refine (h.started i).trans ?_
    by_cases hi : i < (ages past).length
    · rw [List.getElem?_append_left hi]
    · rw [List.getElem?_eq_none (Nat.le_of_not_lt hi),
        List.getElem?_append_right (Nat.le_of_not_lt hi)]
      cases hk : i - (ages past).length <;> rfl
  calls q hq := by
    obtain ⟨p, hp, hcall⟩ := Option.map_eq_some_iff.mp (h.calls q hq)
    rw [ages_append, age, List.getElem?_append_left (List.getElem?_eq_some_iff.mp hp).1, hp]
    exact congrArg some hcall

theorem Scheduled.tick {past : List (ClockEvent α)} {s t : Clocks α} (h : Scheduled past s)
    (htick : s.threadsClock = .ok t) : Scheduled (past ++ [.threadsClock]) t := by
  obtain ⟨hclocks, hstarted, hregistered, -⟩ := threadsClock_spec htick
  rw [h.clocks] at hclocks hstarted
  have hplaced := placed_bind clockOf (fun c => called (some c)) (ages past)
  refine ⟨?_, ?_, fun i => ?_, fun q hq => ?_⟩
  · rw [ages_append, age, List.length_map, hregistered, h.registered]
  · rw [ages_append, age, placed_map, hclocks]
    exact placed_bind clockOf (fun c => (tickClock c).2) (ages past)
  · rw [ages_append, age, List.getElem?_map, hstarted, hplaced, List.map_append, List.count_append,
      h.started, count_placed]
    cases hp : (ages past)[i]? with
    | none => rfl
    | some p =>
      obtain ⟨c, n⟩ := p
      change (alone c n).starts + _ = (alone c n).tick.starts
      rw [Alone.tick, Option.bind_some, clockOf]
      cases (alone c n).clock <;> rfl
  · rw [ages_append, age, List.getElem?_map]
    rw [hstarted, hplaced] at hq
    rcases List.mem_append.mp hq with hq | hq
    · rw [← h.calls q hq, Option.map_map]
      rfl
    · obtain ⟨p, hp, hq⟩ := Option.bind_eq_some_iff.mp (mem_placed hq)
      obtain ⟨d, hd, hq⟩ := Option.bind_eq_some_iff.mp hq
      obtain ⟨-, hcall⟩ := Option.ite_none_right_eq_some.mp hq
      rw [hp, ← Option.some_inj.mp hcall, alone_call hd]
      rfl

/-- The induction is on the events; what the threads report does not touch the clocks. -/
theorem scheduled {events : List (ClockEvent α)} {t : Clocks α}
    (hrun : run Clocks.step {} events = .ok t) : Scheduled events t := by
  have hfirst : Scheduled [] ({} : Clocks α) :=
    ⟨rfl, rfl, fun i => rfl, fun q hq => absurd hq List.not_mem_nil⟩
  refine run_history (fun past e rest s u _ hs hstep => ?_)
    (List.nil_append events).symm hfirst hrun
  cases e with
  | newClock c =>
    cases hstep
    exact hs.newClock c
  | clockThreadFinish tid =>
    cases hstep
    have hages : ages (past ++ [.clockThreadFinish tid]) = ages past := ages_append past _
    refine ⟨?_, ?_, ?_, ?_⟩ <;> rw [hages]
    · exact hs.registered
    · exact hs.clocks
    · exact hs.started
    · exact hs.calls
  | threadsClock => exact hs.tick hstep

/-- A thread reports its end once, and while it runs. -/
def Reports (s : Clocks α) : ClockEvent α → Prop
  | .clockThreadFinish tid => tid ∉ s.clockThreadFinished ∧ s.clocksThreadMap.contains tid = true
  | _ => True

instance (s : Clocks α) (e : ClockEvent α) : Decidable (Reports s e) :=
  match e with
  | .newClock _ | .threadsClock => isTrue trivial
  | .clockThreadFinish tid =>
    inferInstanceAs
      (Decidable (tid ∉ s.clockThreadFinished ∧ s.clocksThreadMap.contains tid = true))

theorem Joinable.step {s : Clocks α} {e : ClockEvent α} (h : Joinable s) (hreports : Reports s e) :
    ∃ t, Clocks.step s e = .ok t ∧ Joinable t := by
  cases e with
  | newClock c => exact ⟨_, rfl, h.nodup, h.running⟩
  | clockThreadFinish tid =>
    refine ⟨_, rfl, ?_, ?_⟩
    · exact List.nodup_append.mpr ⟨h.nodup, List.nodup_singleton tid, by
        rintro a ha b hb rfl
        exact hreports.1 (List.mem_singleton.mp hb ▸ ha)⟩
    · intro a ha
      rcases List.mem_append.mp ha with ha | ha
      · exact h.running a ha
      · rw [List.mem_singleton.mp ha]
        exact hreports.2
  | threadsClock =>
    obtain ⟨rest, hjoin⟩ := joinThreads_ok h.nodup h.running
    obtain ⟨t, htick⟩ : ∃ t, s.threadsClock = .ok t := by
      rw [Clocks.threadsClock, hjoin]
      exact ⟨_, rfl⟩
    obtain ⟨-, -, -, hfinished⟩ := threadsClock_spec htick
    refine ⟨t, htick, ?_, ?_⟩
    · rw [hfinished]
      exact List.nodup_nil
    · rw [hfinished]
      exact fun tid htid => absurd htid List.not_mem_nil

/-- Every clock starts its own function, as often as it would on its own, whatever else is
registered, runs down or is removed. Nothing stops the ticks as long as the threads report their end
once. -/
theorem clocks_start {events : List (ClockEvent α)}
    (hclicks : ∀ c, .newClock c ∈ events → 0 ≤ c.click ∧ 0 ≤ c.rawclick) :
    (∀ t, run Clocks.step {} events = .ok t →
      ∀ before c after, events = before ++ .newClock c :: after →
      ((t.started.map Prod.fst).count (before.countP isNew) : Int) =
        starts c (after.countP isTick) ∧
      ∀ q ∈ t.started, q.1 = before.countP isNew → q.2 = c.call) ∧
    (Along Clocks.step Reports {} events → ∃ t, run Clocks.step {} events = .ok t) := by
  refine ⟨fun t hrun before c after hevents => ?_, fun hreports => ?_⟩
  · have hs := scheduled hrun
    have hage := getElem?_ages before after c
    rw [← hevents] at hage
    refine ⟨?_, fun q hq hplace => ?_⟩
    · obtain ⟨hclick, hraw⟩ := hclicks c (by rw [hevents]; simp)
      rw [hs.started, hage]
      exact alone_starts hclick hraw (after.countP isTick)
    · have hcall := hs.calls q hq
      rw [hplace, hage] at hcall
      exact (Option.some_inj.mp hcall).symm
  · have hfirst : Joinable ({} : Clocks α) :=
      ⟨List.nodup_nil, fun tid htid => absurd htid List.not_mem_nil⟩
    obtain ⟨t, ht, -⟩ := @run_along _ _ _ Clocks.step Reports (fun _ s => Joinable s)
      (fun past e s hs hreport => hs.step hreport) [] events {} hfirst hreports
    exact ⟨t, ht⟩

end

/-- Registered between two ticks, next to a clock that has run down. -/
def resettable : ClockRegister Nat := { call := 11, ifReset := true, click := 1, rawclick := 1 }

def clockEvents : List (ClockEvent Nat) :=
  [.newClock { call := 10, click := 0, rawclick := 0 }, .threadsClock, .newClock resettable,
    .threadsClock, .clockThreadFinish 0, .threadsClock, .threadsClock, .threadsClock]

theorem clocks_start_sample :
    ∃ t, run Clocks.step {} clockEvents = .ok t ∧ ((t.started.map Prod.fst).count 1 : Int) = 2 := by
  have hclicks (c : ClockRegister Nat) (hc : .newClock c ∈ clockEvents) : 0 ≤ c.click ∧
      0 ≤ c.rawclick := by
    simp only [clockEvents, List.mem_cons, ClockEvent.newClock.injEq, reduceCtorEq,
      List.not_mem_nil, false_or, or_false] at hc
    rcases hc with rfl | rfl <;> decide
  obtain ⟨hstarts, hreturns⟩ := clocks_start hclicks
  obtain ⟨t, ht⟩ := hreturns (by decide +kernel)
  exact ⟨t, ht, (hstarts t ht (clockEvents.take 2) resettable (clockEvents.drop 3) rfl).1⟩

end NetCpp.Proofs
