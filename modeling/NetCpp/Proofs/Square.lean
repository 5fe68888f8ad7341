import NetCpp.Library.Slots
import NetCpp.Proofs.Requests

namespace NetCpp.Proofs
open Library Library.Slots SqeServer

variable {env : Environment} {psvr : SqeServer}

/-- The statement of a step, and the threads that are left. -/
theorem wait_eq {i : Nat} {d : WaitDeamon} (hd : psvr.deamons[i]? = some d) (good : Bool) :
    psvr.wait i good = executed
      { psvr with deamons := match (d.next good).1 with
          | none => psvr.deamons.eraseIdx i
          | some d => psvr.deamons.set i d } (d.next good).2 := by
  rw [wait, hd]
  simp only
  cases (d.next good).1 <;> cases (d.next good).2 <;> rfl

theorem next_closing {d : WaitDeamon} {good : Bool} (h : d.phase = .closing) :
    d.next good = (none, none) := by
  simp [WaitDeamon.next, h]

/-- A step that is not the last one is of the same client. -/
theorem next_continues {d : WaitDeamon} (good : Bool) (h : d.phase ≠ .closing) :
    ∃ e smt, d.next good = (some e, smt) ∧ e.pclr.clientId = d.pclr.clientId := by
  rw [WaitDeamon.next]
  cases hp : d.phase with
  | closing => exact absurd hp h
  | scheduled => cases good <;> exact ⟨_, _, rfl, rfl⟩
  | handshake => cases good <;> exact ⟨_, _, rfl, rfl⟩
  | serving =>
    simp only
    split
    · exact ⟨_, _, rfl, rfl⟩
    · split
      · exact ⟨_, _, rfl, rfl⟩
      · exact ⟨_, _, rfl, rfl⟩

/-- A client without a thread can log in. -/
def Free (psvr : SqeServer) : Prop :=
  ∀ id, (∀ d ∈ psvr.deamons, d.pclr.clientId ≠ id) →
    ∀ row ∈ psvr.registerInfo, row.clientId = id → row.status = 0

/-- A thread of the client that has yet to come to its end. -/
def Serves (id : UInt64) (d : WaitDeamon) : Prop := d.pclr.clientId = id ∧ d.phase ≠ .closing

instance (id : UInt64) : DecidablePred (Serves id) :=
  fun d => inferInstanceAs (Decidable (d.pclr.clientId = id ∧ d.phase ≠ .closing))

/-- A status other than 0 has such a thread to take it back. -/
def Held (rows : List RegisterInfo) (deamons : List WaitDeamon) : Prop :=
  ∀ row ∈ rows, row.status ≠ 0 → ∃ d ∈ deamons, Serves row.clientId d

theorem Held.free (h : Held psvr.registerInfo psvr.deamons) : Free psvr := by
  intro id hnone row hrow hid
  by_contra hstatus
  obtain ⟨d, hd, hserves, -⟩ := h row hrow hstatus
  exact hnone d hd (hserves.trans hid)

theorem Held.mono {rows : List RegisterInfo} {deamons deamons' : List WaitDeamon}
    (h : Held rows deamons) (hkeep : ∀ id, (∃ d ∈ deamons, Serves id d) →
      ∃ d ∈ deamons', Serves id d) : Held rows deamons' :=
  fun row hrow hstatus => hkeep row.clientId (h row hrow hstatus)

/-- After an update the threads of the client count for the new status. -/
theorem Held.update {rows : List RegisterInfo} {deamons deamons' : List WaitDeamon} {status : Int}
    {id : UInt64} (h : Held rows deamons)
    (hother : ∀ id' ≠ id, (∃ d ∈ deamons, Serves id' d) → ∃ d ∈ deamons', Serves id' d)
    (hself : status ≠ 0 → ∃ d ∈ deamons', Serves id d) :
    Held (rows.map (fun row => if row.clientId = id then { row with status } else row))
      deamons' := by
  intro row hrow hstatus
  obtain ⟨old, hold, rfl⟩ := List.mem_map.mp hrow
  by_cases hid : old.clientId = id
  · simp only [hid, if_true] at hstatus ⊢
    exact hself hstatus
  · simp only [if_neg hid] at hstatus ⊢
    exact hother old.clientId hid (h old hold hstatus)

/-- A thread that ends without a last look at the status. -/
def EndsSilently (d : WaitDeamon) (good : Bool) : Prop :=
  d.phase = .handshake ∧ good = false ∨ d.phase = .serving ∧ d.pclr.click = 0

instance (d : WaitDeamon) (good : Bool) : Decidable (EndsSilently d good) :=
  inferInstanceAs (Decidable (_ ∨ _))

/-- The client whose status a statement updates. -/
def updated : Statement → Option UInt64
  | .insertInfo _ => none
  | .updateStatus _ id => some id

/-- A thread only ends silently when the status is 0 or another one of the client is left, and
a login sets the status while the thread it has started, or another one, is there. -/
def Releases (s : Square) : SquareEvent → Prop
  | .request _ => True
  | .commit =>
    match (s.handled.bind Handled.psqlsmt).bind updated with
    | none => True
    | some id => ∃ d ∈ s.psvr.deamons, Serves id d
  | .wait i good => ∀ d ∈ s.psvr.deamons[i]?, EndsSilently d good →
      (∀ row ∈ s.psvr.registerInfo, row.clientId = d.pclr.clientId → row.status = 0) ∨
        Elsewhere s.psvr.deamons i (Serves d.pclr.clientId)

instance (s : Square) (e : SquareEvent) : Decidable (Releases s e) :=
  match e with
  | .request _ => isTrue trivial
  | .commit =>
    match h : (s.handled.bind Handled.psqlsmt).bind updated with
    | none => isTrue (by simp [Releases, h])
    | some id => decidable_of_iff (∃ d ∈ s.psvr.deamons, Serves id d) (by simp [Releases, h])
  | .wait i good => inferInstanceAs (Decidable (∀ d ∈ s.psvr.deamons[i]?, EndsSilently d good →
      (∀ row ∈ s.psvr.registerInfo, row.clientId = d.pclr.clientId → row.status = 0) ∨
        Elsewhere s.psvr.deamons i (Serves d.pclr.clientId)))

/-- With the row that a registration has yet to insert. -/
structure StatusHeld (s : Square) : Prop where
  held : Held s.psvr.registerInfo s.psvr.deamons
  inserted : ∀ handled row, s.handled = some handled → handled.psqlsmt = some (.insertInfo row) →
    row.status = 0

theorem statusHeld_request {s t : Square} {preq : Request} (h : StatusHeld s)
    (hstep : s.step env (.request preq) = .ok t) : StatusHeld t := by
  rw [Square.step] at hstep
  cases hhandled : s.handled with
  | some handled =>
    simp only [hhandled] at hstep
    obtain rfl := Except.ok.inj hstep
    exact h
  | none =>
    simp only [hhandled] at hstep
    obtain ⟨⟨u, handled⟩, hhandle, hstep⟩ := bind_ok hstep
    obtain rfl := Except.ok.inj hstep
    have hmore : ∀ (pclr : ClientRegister) id, (∃ d ∈ s.psvr.deamons, Serves id d) →
        ∃ d ∈ s.psvr.deamons ++ [({ pclr } : WaitDeamon)], Serves id d := by
      rintro pclr id ⟨d, hd, hserves⟩
      exact ⟨d, List.mem_append_left _ hd, hserves⟩
    cases handle_effect hhandle with
    | nothing drawn pnr hprivate =>
      refine ⟨h.held, ?_⟩
      intro handled row hsome hrow
      obtain rfl := Option.some.inj hsome
      cases hrow
    | register drawn pclr row pnr hprivate hnew hclick hid hstatus =>
      refine ⟨h.held.mono (hmore pclr), ?_⟩
      intro handled row' hsome hrow
      obtain rfl := Option.some.inj hsome
      obtain rfl := Statement.insertInfo.inj (Option.some.inj hrow)
      exact hstatus
    | login drawn pclr row pnr hlogin hfound hid hclick =>
      refine ⟨h.held.mono (hmore pclr), ?_⟩
      intro handled row' hsome hrow'
      obtain rfl := Option.some.inj hsome
      cases hrow'

theorem statusHeld_commit {s t : Square} (h : StatusHeld s) (hcond : Releases s .commit)
    (hstep : s.step env .commit = .ok t) : StatusHeld t := by
  rw [Square.step] at hstep
  cases hhandled : s.handled with
  | none =>
    simp only [hhandled] at hstep
    obtain rfl := Except.ok.inj hstep
    exact h
  | some handled =>
    simp only [hhandled, commit_ok] at hstep
    obtain rfl := Except.ok.inj hstep
    refine ⟨?_, fun _ _ hnone => by cases hnone⟩
    simp only [executed_deamons]
    cases hsmt : handled.psqlsmt with
    | none => exact h.held
    | some smt =>
      cases smt with
      | insertInfo row =>
        intro row' hrow' hstatus
        rcases List.mem_append.mp hrow' with hold | hnew
        · exact h.held row' hold hstatus
        · obtain rfl := List.mem_singleton.mp hnew
          exact absurd (h.inserted handled row' hhandled hsmt) hstatus
      | updateStatus status id =>
        have hserved : ∃ d ∈ s.psvr.deamons, Serves id d := by
          simpa [Releases, hhandled, hsmt, updated] using hcond
        exact h.held.update (fun _ _ hd => hd) (fun _ => hserved)

/-- What is left of a client's threads when one of them goes on. -/
theorem serves_set {deamons : List WaitDeamon} {i : Nat} {d e : WaitDeamon} {id : UInt64}
    (hd : deamons[i]? = some d)
    (hself : Serves id d → Serves id e ∨ Elsewhere deamons i (Serves id))
    (h : ∃ x ∈ deamons, Serves id x) : ∃ x ∈ deamons.set i e, Serves id x := by
  have hi := (List.getElem?_eq_some_iff.mp hd).1
  rw [exists_mem_set_iff hi]
  rcases (exists_mem_iff hd).mp h with hserves | helse
  · exact hself hserves
  · exact Or.inr helse

/-- The steps that update the status, to 0 at an end and to 1 in the middle. -/
theorem held_set_update {rows : List RegisterInfo} {deamons : List WaitDeamon} {i : Nat}
    {d e : WaitDeamon} {status : Int} (h : Held rows deamons) (hd : deamons[i]? = some d)
    (hid : e.pclr.clientId = d.pclr.clientId) (hself : status ≠ 0 → e.phase ≠ .closing) :
    Held (rows.map (fun row => if row.clientId = d.pclr.clientId then { row with status } else row))
      (deamons.set i e) := by
  have hi := (List.getElem?_eq_some_iff.mp hd).1
  refine h.update (fun id hne hlive => ?_) (fun hstatus => ?_)
  · exact serves_set hd (fun hserves => absurd hserves.1.symm hne) hlive
  · exact (exists_mem_set_iff hi).mpr (Or.inl ⟨hid, hself hstatus⟩)

theorem held_wait {i : Nat} {good : Bool} {d : WaitDeamon} (h : Held psvr.registerInfo psvr.deamons)
    (hd : psvr.deamons[i]? = some d)
    (hcond : EndsSilently d good →
      (∀ row ∈ psvr.registerInfo, row.clientId = d.pclr.clientId → row.status = 0) ∨
        Elsewhere psvr.deamons i (Serves d.pclr.clientId)) :
    Held (psvr.wait i good).registerInfo (psvr.wait i good).deamons := by
  -- A step that goes on without a statement keeps the thread for its client.
  have hgo : ∀ e : WaitDeamon, e.pclr.clientId = d.pclr.clientId → e.phase ≠ .closing →
      Held psvr.registerInfo (psvr.deamons.set i e) := by
    intro e hid hphase
    refine h.mono (fun id hlive => serves_set hd (fun hserves => ?_) hlive)
    exact Or.inl ⟨hid.trans hserves.1, hphase⟩
  have hsilent : EndsSilently d good →
      ∀ e : WaitDeamon, Held psvr.registerInfo (psvr.deamons.set i e) := by
    intro hends e row hrow hstatus
    refine serves_set hd (fun hserves => ?_) (h row hrow hstatus)
    rcases hcond hends with hzero | helse
    · exact absurd (hzero row hrow hserves.1.symm) hstatus
    · rw [hserves.1] at helse
      exact Or.inr helse
  rw [wait_eq hd]
  cases hp : d.phase with
  | scheduled =>
    cases good with
    | true =>
      simp only [WaitDeamon.next, hp, if_true]
      exact hgo { d with phase := .handshake } rfl (by simp)
    | false =>
      simp only [WaitDeamon.next, hp, Bool.false_eq_true, if_false]
      exact held_set_update h hd rfl (fun hstatus => absurd rfl hstatus)
  | handshake =>
    cases good with
    | true =>
      simp only [WaitDeamon.next, hp, if_true]
      exact held_set_update h hd rfl (by simp)
    | false =>
      simp only [WaitDeamon.next, hp, Bool.false_eq_true, if_false]
      exact hsilent (Or.inl ⟨hp, rfl⟩) _
  | serving =>
    by_cases hclick : d.pclr.click = 0
    · simp only [WaitDeamon.next, hp, hclick, if_true]
      exact hsilent (Or.inr ⟨hp, hclick⟩) _
    · cases good with
      | true =>
        simp only [WaitDeamon.next, hp, if_neg hclick, if_true]
        exact hgo { pclr := { d.pclr with click := d.pclr.click - 1 }, phase := .serving } rfl
          (by simp)
      | false =>
        simp only [WaitDeamon.next, hp, if_neg hclick, Bool.false_eq_true, if_false]
        exact held_set_update h hd rfl (fun hstatus => absurd rfl hstatus)
  | closing =>
    simp only [next_closing hp]
    refine h.mono (fun id hlive => ?_)
    rcases (exists_mem_iff hd).mp hlive with hserves | helse
    · exact absurd hp hserves.2
    · exact exists_mem_eraseIdx_iff.mpr helse

theorem statusHeld_step {s t : Square} {e : SquareEvent} (h : StatusHeld s) (hcond : Releases s e)
    (hstep : s.step env e = .ok t) : StatusHeld t := by
  cases e with
  | request preq => exact statusHeld_request h hstep
  | commit => exact statusHeld_commit h hcond hstep
  | wait i good =>
    obtain rfl := Except.ok.inj hstep
    refine ⟨?_, h.inserted⟩
    cases hd : s.psvr.deamons[i]? with
    | none =>
      rw [wait, hd]
      exact h.held
    | some d => exact held_wait h.held hd (hcond d hd)

/-- A server that has just started. -/
structure Started (s : Square) : Prop where
  deamons : s.psvr.deamons = []
  clientLst : s.psvr.clientLst = ∅
  handled : s.handled = none

theorem free_along {s t : Square} {events : List SquareEvent} (hs : Started s)
    (hzero : ∀ row ∈ s.psvr.registerInfo, row.status = 0)
    (hcond : Along (Square.step env) Releases s events)
    (h : run (Square.step env) s events = .ok t) : Free t.psvr := by
  have hstart : StatusHeld s := by
    refine ⟨fun row hrow hstatus => absurd (hzero row hrow) hstatus, fun handled row hsome => ?_⟩
    rw [hs.handled] at hsome
    cases hsome
  exact (run_along_invariant (fun _ _ _ => statusHeld_step) hstart hcond h).held.free

def registerText : Bytes := ascii
  ['{', '"', 'k', 'e', 'y', '"', ':', '[', ']', ',', '"', 'n', 'a', 'm', 'e', '"', ':', '"',
  'a', '"', ',', '"', 't', 'a', 'g', '"', ':', '"', 'b', '"', ',', '"', 'l', 'i', 's', 't',
  'e', 'n', '_', 'p', 'o', 'r', 't', '"', ':', '1', ',', '"', 'l', 'i', 's', 't', 'e', 'n',
  '_', 'i', 'p', '"', ':', '"', '0', '.', '0', '.', '0', '.', '0', '"', '}']

def loginText : Bytes := ascii
  ['{', '"', 'c', 'l', 'i', 'e', 'n', 't', '_', 'i', 'd', '"', ':', '5', '7', '4', '7', '7',
  '9', '6', '7', '6', '8', '6', '9', '3', '1', '5', '6', '6', '4', '9', ',', '"', 'p', 'a',
  's', 's', 'w', 'd', '"', ':', '6', '3', '9', '4', '0', '5', '2', '3', '1', '2', '5', '3',
  '2', '7', '5', '9', '2', '1', '9', '}']

/-- The members of the two texts, with the numbers that a generator with the seed 2 draws. -/
def sampleEnvironment : Environment where
  rand64 := rng64 2
  registerDoc s :=
    if s = registerText then
      some { key := [], name := ascii ['a'], tag := ascii ['b'], listenPort := 1
             listenIp := ascii ['0', '.', '0', '.', '0', '.', '0'] }
    else none
  loginClientId s := if s = loginText then some 5747796768693156649 else none
  loginPasswd s := if s = loginText then some 6394052312532759219 else none
  inetAddr _ := 0

def samplePrivate : Request where
  rId := 1
  type := privateRequest
  data := registerText
  recvPort := 9050
  tAddr := .replicate 16 0

def sampleLogin : Request where
  rId := 2
  type := clientLogin
  data := loginText
  recvPort := 9050
  tAddr := .replicate 16 0

def sampleSquare : Square where
  psvr := { pkc := ⟨100160063, 257⟩, prc := ⟨100160063, 50264849⟩ }

theorem sampleSquare_started : Started sampleSquare := ⟨rfl, rfl, rfl⟩

/-- A client registers, cannot be connected to, logs in and is connected to. -/
def loginEvents : List SquareEvent :=
  [.request samplePrivate, .commit, .wait 0 false, .wait 0 false, .request sampleLogin, .commit,
    .wait 0 true]

/-- The client is there until its lease ends, and then another thread is. -/
theorem free_along_login :
    ∃ t, run (Square.step sampleEnvironment) sampleSquare loginEvents = .ok t ∧
    Free t.psvr := by
  have hcond : Along (Square.step sampleEnvironment) Releases sampleSquare loginEvents := by
    decide +kernel
  have hok : (run (Square.step sampleEnvironment) sampleSquare loginEvents).isOk = true := by
    decide +kernel
  obtain ⟨t, h⟩ := exists_of_isOk hok
  exact ⟨t, h, free_along sampleSquare_started (fun _ hrow => by cases hrow) hcond h⟩

/-- The connected client does not answer `DGET`: the thread is over and the status stays 1. -/
theorem free_along_refused : ∃ t, run (Square.step sampleEnvironment) sampleSquare
    (loginEvents ++ [.wait 0 false, .wait 0 false]) = .ok t ∧ ¬Free t.psvr := by
  have hend : (run (Square.step sampleEnvironment) sampleSquare
      (loginEvents ++ [.wait 0 false, .wait 0 false])).toOption.map
        (fun t => (t.psvr.deamons.length, t.psvr.registerInfo.map RegisterInfo.status)) =
      some (0, [1]) := by
    decide +kernel
  cases h : run (Square.step sampleEnvironment) sampleSquare
    (loginEvents ++ [.wait 0 false, .wait 0 false]) with
  | error e =>
    rw [h] at hend
    cases hend
  | ok t =>
    rw [h] at hend
    obtain ⟨hnone, hrows⟩ := Prod.mk.inj (Option.some.inj hend)
    refine ⟨t, rfl, fun hfree => ?_⟩
    have hstatus : (1 : Int) ∈ t.psvr.registerInfo.map RegisterInfo.status := by
      rw [hrows]
      exact List.mem_singleton_self 1
    obtain ⟨row, hrow, hone⟩ := List.mem_map.mp hstatus
    have hno : ∀ d ∈ t.psvr.deamons, d.pclr.clientId ≠ row.clientId := by
      rw [List.length_eq_zero_iff.mp hnone]
      simp
    have hzero := hfree row.clientId hno row hrow rfl
    omega

def InService (psvr : SqeServer) (id : UInt64) : Prop := ∃ d ∈ psvr.deamons, d.pclr.clientId = id

/-- A client has an entry exactly while a thread serves it. -/
def Matched (psvr : SqeServer) : Prop := ∀ id, psvr.clientLst.contains id = true ↔ InService psvr id

/-- No thread is the last one of its client when it is over, and no login starts a thread for a
client without an entry. -/
def Maintains (env : Environment) (s : Square) : SquareEvent → Prop
  | .request preq => s.handled = none → preq.type = clientLogin →
      ∀ row ∈ loginRow env s.psvr preq, s.psvr.clientLst.contains row.clientId = true
  | .commit => True
  | .wait i _ => ∀ d ∈ s.psvr.deamons[i]?, d.phase = .closing →
      Elsewhere s.psvr.deamons i (fun e => e.pclr.clientId = d.pclr.clientId)

instance (s : Square) (e : SquareEvent) : Decidable (Maintains env s e) :=
  match e with
  | .request preq => inferInstanceAs (Decidable (s.handled = none → preq.type = clientLogin →
      ∀ row ∈ loginRow env s.psvr preq, s.psvr.clientLst.contains row.clientId = true))
  | .commit => isTrue trivial
  | .wait i _ => inferInstanceAs (Decidable (∀ d ∈ s.psvr.deamons[i]?, d.phase = .closing →
      Elsewhere s.psvr.deamons i (fun e => e.pclr.clientId = d.pclr.clientId)))

theorem inService_append (deamons : List WaitDeamon) (d : WaitDeamon) (id : UInt64) :
    (∃ e ∈ deamons ++ [d], e.pclr.clientId = id) ↔
      (∃ e ∈ deamons, e.pclr.clientId = id) ∨ d.pclr.clientId = id := by
  simp [or_and_right, exists_or]

theorem matched_wait {i : Nat} {good : Bool} {d : WaitDeamon} (h : Matched psvr)
    (hd : psvr.deamons[i]? = some d)
    (hcond : d.phase = .closing →
      Elsewhere psvr.deamons i (fun e => e.pclr.clientId = d.pclr.clientId)) :
    Matched (psvr.wait i good) := by
  intro id
  have hi := (List.getElem?_eq_some_iff.mp hd).1
  have hold := h id
  rw [InService, exists_mem_iff hd] at hold
  rw [InService, wait_eq hd]
  simp only [executed_clientLst, executed_deamons]
  rw [hold]
  by_cases hp : d.phase = .closing
  · rw [next_closing hp]
    simp only
    rw [exists_mem_eraseIdx_iff]
    constructor
    · rintro (rfl | helse)
      · exact hcond hp
      · exact helse
    · exact Or.inr
  · obtain ⟨e, smt, hnext, hid⟩ := next_continues good hp
    rw [hnext]
    simp only
    rw [exists_mem_set_iff hi, hid]

theorem contains_insertIfNew {pclr : ClientRegister} (lst : Std.TreeMap UInt64 ClientRegister)
    (k id : UInt64) :
    (lst.insertIfNew k pclr).contains id = true ↔ lst.contains id = true ∨ k = id := by
  rw [Std.TreeMap.contains_insertIfNew]
  simp [or_comm]

theorem matched_request {s t : Square} {preq : Request} (h : Matched s.psvr)
    (hcond : Maintains env s (.request preq)) (hstep : s.step env (.request preq) = .ok t) :
    Matched t.psvr := by
  rw [Square.step] at hstep
  cases hhandled : s.handled with
  | some handled =>
    simp only [hhandled] at hstep
    obtain rfl := Except.ok.inj hstep
    exact h
  | none =>
    simp only [hhandled] at hstep
    obtain ⟨⟨u, handled⟩, hhandle, hstep⟩ := bind_ok hstep
    obtain rfl := Except.ok.inj hstep
    cases handle_effect hhandle with
    | nothing drawn pnr hprivate => exact h
    | register drawn pclr row pnr hprivate hnew hclick hid hstatus =>
      intro id
      refine (contains_insertIfNew s.psvr.clientLst pclr.clientId id).trans ?_
      rw [InService, inService_append, h id]
      rfl
    | login drawn pclr row pnr hlogin hfound hid hclick =>
      intro id
      have hentry := hcond hhandled hlogin row hfound
      rw [InService, inService_append]
      refine (h id).trans ⟨Or.inl, ?_⟩
      rintro (hserved | rfl)
      · exact hserved
      · rw [← hid] at hentry
        exact (h pclr.clientId).mp hentry

theorem matched_step {s t : Square} {e : SquareEvent} (h : Matched s.psvr)
    (hcond : Maintains env s e) (hstep : s.step env e = .ok t) : Matched t.psvr := by
  cases e with
  | request preq => exact matched_request h hcond hstep
  | commit =>
    rw [Square.step] at hstep
    cases hhandled : s.handled with
    | none =>
      simp only [hhandled] at hstep
      obtain rfl := Except.ok.inj hstep
      exact h
    | some handled =>
      simp only [hhandled, commit_ok] at hstep
      obtain rfl := Except.ok.inj hstep
      intro id
      simp only [InService, executed_clientLst, executed_deamons]
      exact h id
  | wait i good =>
    obtain rfl := Except.ok.inj hstep
    cases hd : s.psvr.deamons[i]? with
    | none =>
      rw [wait, hd]
      exact h
    | some d => exact matched_wait h hd (hcond d hd)

/-- Which key is used for a post depends on the entry of the client that it names. -/
theorem postKey_eq {ppkt : Packet} {clientId pId : UInt64} {tAddr : SockAddr}
    (h : getPostInfo ppkt = .ok (clientId, pId, tAddr)) :
    psvr.postKey ppkt = .ok (psvr.clientLst[clientId]?.map ClientRegister.key) := by
  rw [postKey, h]
  rfl

end NetCpp.Proofs
