import NetCpp.Library.Mixing
import NetCpp.Proofs.Answers

namespace NetCpp.Proofs
open Library SqeServer

/-- The generator gives a number again only after all 2^64 of them. -/
theorem rng64_eq_iff (seed : UInt64) (m n : Nat) :
    rng64 seed m = rng64 seed n ↔ m % 2 ^ 64 = n % 2 ^ 64 := by
  constructor
  · intro h
    have hlast := xor_shiftRight_injective64 (by decide : 0 < (31 : UInt64).toNat % 64) h
    have hsecond := xor_shiftRight_injective64 (by decide : 0 < (27 : UInt64).toNat % 64)
      (mul_injective64 (by decide : (0x94D049BB133111EB : UInt64) * 0x319642B2D24D8EC3 = 1) hlast)
    have hfirst := xor_shiftRight_injective64 (by decide : 0 < (30 : UInt64).toNat % 64)
      (mul_injective64 (by decide : (0xBF58476D1CE4E5B9 : UInt64) * 0x96DE1B173F119089 = 1) hsecond)
    have hstep :=
      mul_injective64 (by decide : (0x9E3779B97F4A7C15 : UInt64) * 0xF1DE83E19937733D = 1)
      (add_left_cancel hfirst)
    have hnat := congrArg UInt64.toNat hstep
    simp only [UInt64.toNat_ofNat'] at hnat
    omega
  · intro h
    have hword : UInt64.ofNat (m + 1) = UInt64.ofNat (n + 1) := by
      rw [← UInt64.toNat_inj, UInt64.toNat_ofNat', UInt64.toNat_ofNat']
      omega
    rw [rng64, rng64, hword]

/-- The two numbers by which a client is known. -/
def numbers (row : RegisterInfo) : List UInt64 := [row.clientId, row.passwd]

/-- The row that a statement inserts. -/
def inserts : Statement → List RegisterInfo
  | .insertInfo row => [row]
  | .updateStatus _ _ => []

/-- The rows of the table, with the one that has yet to be inserted. -/
def rows (s : Square) : List RegisterInfo :=
  s.psvr.registerInfo ++ (s.handled.bind Handled.psqlsmt).toList.flatMap inserts

/-- The numbers of the rows are draws, in their order, and none is drawn for two of them. -/
def Numbered (env : Environment) (s : Square) : Prop :=
  ∃ ns : List Nat, (rows s).flatMap numbers = ns.map env.rand64 ∧ ns.Pairwise (· < ·) ∧
    ∀ n ∈ ns, n < s.psvr.drawn

section
variable {env : Environment} {psvr t : SqeServer} {preq : Request} {handled : Handled}

/-- What a request draws for the row that it adds. -/
structure Drew (env : Environment) (psvr t : SqeServer) (handled : Handled) : Prop where
  registerInfo : t.registerInfo = psvr.registerInfo
  drawn : psvr.drawn ≤ t.drawn
  inserted : handled.psqlsmt.toList.flatMap inserts = [] ∨
    ∃ row, handled.psqlsmt.toList.flatMap inserts = [row] ∧
    numbers row = [env.rand64 (psvr.drawn + 4), env.rand64 (psvr.drawn + 5)] ∧
      psvr.drawn + 5 < t.drawn

theorem register_drew {smt : Statement} {pnr : Option Respond}
    (h : psvr.register env preq = .ok (t, smt)) : Drew env psvr t { psqlsmt := some smt, pnr } := by
  rw [register] at h
  split at h
  · cases h
  · obtain ⟨key, -, h⟩ := bind_ok h
    obtain ⟨rfl, rfl⟩ := Prod.mk.inj (Except.ok.inj h)
    exact ⟨rfl, Nat.le_add_right _ _, .inr ⟨_, rfl, rfl, Nat.lt_succ_self _⟩⟩

theorem handleLogin_drew (h : psvr.handleLogin env preq = .ok (t, handled)) :
    Drew env psvr t handled := by
  rw [handleLogin] at h
  split at h
  · cases h
  split at h
  · obtain ⟨rfl, rfl⟩ := Prod.mk.inj (Except.ok.inj h)
    exact ⟨rfl, Nat.le_add_right _ _, .inl rfl⟩
  split at h
  · cases h
  split at h
  · obtain ⟨rfl, rfl⟩ := Prod.mk.inj (Except.ok.inj h)
    exact ⟨rfl, Nat.le_add_right _ _, .inl rfl⟩
  simp only at h
  split at h
  · obtain ⟨rfl, rfl⟩ := Prod.mk.inj (Except.ok.inj h)
    exact ⟨rfl, Nat.le_add_right _ _, .inl rfl⟩
  · obtain ⟨rfl, rfl⟩ := Prod.mk.inj (Except.ok.inj h)
    exact ⟨rfl, Nat.le_add_right _ _, .inl rfl⟩

theorem handle_drew (h : psvr.handle env preq = .ok (t, handled)) : Drew env psvr t handled := by
  have hnothing (pnr : Option Respond) : Drew env psvr psvr { pnr } :=
    ⟨rfl, Nat.le_refl _, .inl rfl⟩
  rw [handle] at h
  split at h
  · split at h
    · obtain ⟨rfl, rfl⟩ := Prod.mk.inj (Except.ok.inj h)
      exact hnothing _
    · obtain ⟨rfl, rfl⟩ := Prod.mk.inj (Except.ok.inj h)
      exact hnothing _
  split at h
  · simp only at h
    split at h
    · obtain ⟨rfl, rfl⟩ := Prod.mk.inj (Except.ok.inj h)
      exact hnothing _
    · obtain ⟨⟨u, smt⟩, hregister, h⟩ := bind_ok h
      obtain ⟨rfl, rfl⟩ := Prod.mk.inj (Except.ok.inj h)
      exact register_drew hregister
  split at h
  · exact handleLogin_drew h
  · obtain ⟨rfl, rfl⟩ := Prod.mk.inj (Except.ok.inj h)
    exact hnothing _

theorem numbers_updateStatus (infos : List RegisterInfo) (status : Int) (id : UInt64) :
    (infos.map (fun row => if row.clientId = id then { row with status } else row)).flatMap
      numbers = infos.flatMap numbers := by
  rw [List.flatMap_map]
  congr 1
  funext row
  split <;> rfl

/-- A statement inserts its row behind the others. -/
theorem numbers_executed (psvr : SqeServer) (smt : Option Statement) :
    (executed psvr smt).registerInfo.flatMap numbers =
      (psvr.registerInfo ++ smt.toList.flatMap inserts).flatMap numbers := by
  rcases smt with _ | row | ⟨status, id⟩
  · simp [executed]
  · rfl
  · simp only [Option.toList_some, List.flatMap_singleton, inserts, List.append_nil]
    exact numbers_updateStatus psvr.registerInfo status id

theorem executed_drawn (psvr : SqeServer) (smt : Option Statement) :
    (executed psvr smt).drawn = psvr.drawn := by
  rcases smt with _ | row | ⟨status, id⟩ <;> rfl

/-- The thread of a client inserts nothing. -/
theorem inserts_next (d : WaitDeamon) (good : Bool) :
    (d.next good).2.toList.flatMap inserts = [] := by
  rw [WaitDeamon.next]
  cases d.phase with
  | scheduled => cases good <;> rfl
  | handshake => cases good <;> rfl
  | serving =>
    simp only
    split
    · rfl
    · cases good <;> rfl
  | closing => rfl

end

section
variable {env : Environment} {s t : Square} {seed : UInt64} {place : Nat → Nat}

theorem Numbered.of_eq (h : Numbered env s)
    (hrows : (rows t).flatMap numbers = (rows s).flatMap numbers)
    (hdrawn : s.psvr.drawn ≤ t.psvr.drawn) : Numbered env t := by
  obtain ⟨ns, hns, hpairwise, hlt⟩ := h
  exact ⟨ns, hrows.trans hns, hpairwise, fun n hn => Nat.lt_of_lt_of_le (hlt n hn) hdrawn⟩

theorem Numbered.request {preq : Request} (h : Numbered env s)
    (hstep : s.step env (.request preq) = .ok t) : Numbered env t := by
  rw [Square.step] at hstep
  cases hhandled : s.handled with
  | some handled =>
    simp only [hhandled] at hstep
    obtain rfl := Except.ok.inj hstep
    exact h
  | none =>
    simp only [hhandled] at hstep
    obtain ⟨⟨u, handled⟩, hhandle, hstep⟩ := bind_ok hstep
    obtain rfl := Except.ok.inj hstep
    have hdrew := handle_drew hhandle
    obtain ⟨ns, hns, hpairwise, hlt⟩ := h
    have hold : rows s = u.registerInfo := by simp [rows, hhandled, hdrew.registerInfo]
    have hnew : rows { psvr := u, handled := some handled } =
        u.registerInfo ++ handled.psqlsmt.toList.flatMap inserts := rfl
    rcases hdrew.inserted with hnone | ⟨row, hrow, hnumbers, hroom⟩
    · refine ⟨ns, ?_, hpairwise, fun n hn => Nat.lt_of_lt_of_le (hlt n hn) hdrew.drawn⟩
      rw [hnew, hnone, List.append_nil, ← hold, hns]
    · refine ⟨ns ++ [s.psvr.drawn + 4, s.psvr.drawn + 5], ?_, ?_, ?_⟩
      · rw [hnew, hrow, List.flatMap_append, ← hold, hns, List.flatMap_singleton, hnumbers,
          List.map_append]
        rfl
      · refine List.pairwise_append.mpr ⟨hpairwise, by simp, ?_⟩
        intro m hm n hn
        have hm' := hlt m hm
        simp only [List.mem_cons, List.not_mem_nil, or_false] at hn
        omega
      · intro n hn
        rcases List.mem_append.mp hn with hn | hn
        · exact Nat.lt_of_lt_of_le (hlt n hn) hdrew.drawn
        · simp only [List.mem_cons, List.not_mem_nil, or_false] at hn
          dsimp only
          omega

theorem Numbered.commit (h : Numbered env s) (hstep : s.step env .commit = .ok t) :
    Numbered env t := by
  rw [Square.step] at hstep
  cases hhandled : s.handled with
  | none =>
    simp only [hhandled] at hstep
    obtain rfl := Except.ok.inj hstep
    exact h
  | some handled =>
    simp only [hhandled, commit_ok] at hstep
    obtain rfl := Except.ok.inj hstep
    refine h.of_eq ?_ (Nat.le_of_eq (executed_drawn s.psvr handled.psqlsmt).symm)
    have hrows := numbers_executed s.psvr handled.psqlsmt
    simpa [rows, hhandled] using hrows

theorem Numbered.wait (h : Numbered env s) (i : Nat) (good : Bool) :
    Numbered env { s with psvr := s.psvr.wait i good } := by
  cases hd : s.psvr.deamons[i]? with
  | none =>
    rw [SqeServer.wait, hd]
    exact h
  | some d =>
    rw [wait_eq hd]
    refine h.of_eq ?_ (by rw [executed_drawn])
    rw [rows, List.flatMap_append, numbers_executed, inserts_next,
      List.append_nil, ← List.flatMap_append]
    rfl

theorem Numbered.step {e : SquareEvent} (h : Numbered env s) (hstep : s.step env e = .ok t) :
    Numbered env t := by
  cases e with
  | request preq => exact h.request hstep
  | commit => exact h.commit hstep
  | wait i good =>
    obtain rfl := Except.ok.inj hstep
    exact h.wait i good

/-- While the generator has not come round, its draws differ. -/
theorem Numbered.nodup (h : Numbered env s) (hplace : StrictMono place)
    (hdraws : ∀ n, env.rand64 n = rng64 seed (place n)) (hperiod : place s.psvr.drawn ≤ 2 ^ 64) :
    (s.psvr.registerInfo.flatMap numbers).Nodup := by
  obtain ⟨ns, hns, hpairwise, hlt⟩ := h
  have hall : ((rows s).flatMap numbers).Nodup := by
    rw [hns]
    refine List.Nodup.map_on ?_ (hpairwise.imp Nat.ne_of_lt)
    intro m hm n hn heq
    have hm' := hplace (hlt m hm)
    have hn' := hplace (hlt n hn)
    rw [hdraws, hdraws, rng64_eq_iff, Nat.mod_eq_of_lt (by omega),
      Nat.mod_eq_of_lt (by omega)] at heq
    exact hplace.injective heq
  rw [rows, List.flatMap_append] at hall
  exact hall.of_append_left

/-- A number names one row. -/
theorem eq_of_number {infos : List RegisterInfo} (h : (infos.flatMap numbers).Nodup)
    {row row' : RegisterInfo} (hrow : row ∈ infos) (hrow' : row' ∈ infos) {n : UInt64}
    (hn : n ∈ numbers row) (hn' : n ∈ numbers row') : row = row' := by
  by_contra hne
  have : Std.Symm (Function.onFun List.Disjoint numbers) := ⟨fun _ _ h => List.Disjoint.symm h⟩
  have hdisjoint := (List.nodup_flatMap.mp h).2.forall hrow hrow' hne
  exact hdisjoint hn hn'

theorem selectRegister_row {psvr : SqeServer} (h : (psvr.registerInfo.flatMap numbers).Nodup)
    {row : RegisterInfo} (hrow : row ∈ psvr.registerInfo) :
    psvr.selectRegister row.clientId = if row.clientId < 2 ^ 63 then some row else none := by
  split
  · rename_i hlt
    cases hfound : psvr.selectRegister row.clientId with
    | none =>
      have hno := List.find?_eq_none.mp hfound row hrow
      exact absurd ⟨hlt, rfl⟩ (of_decide_eq_false (Bool.eq_false_of_not_eq_true hno))
    | some row' =>
      have hid := selectRegister_clientId hfound
      have hnumber : row.clientId ∈ numbers row' := by rw [numbers, hid]; exact List.mem_cons_self
      rw [eq_of_number h (mem_selectRegister hfound) hrow hnumber List.mem_cons_self]
  · rename_i hge
    rw [selectRegister, List.find?_eq_none]
    intro row' hrow' hyes
    exact hge (of_decide_eq_true hyes).1

/-- The generator repeats a number after 2^64 draws and not before. So, from an empty table and
whatever the threads of the server do, the numbers that it gives its clients are all different, a
row is found by its id if SQLite can tell that id, and a login that is answered names one row by
either number. -/
theorem clients_apart {events : List SquareEvent} (hplace : StrictMono place)
    (hdraws : ∀ n, env.rand64 n = rng64 seed (place n)) (hs : Started s)
    (hnone : s.psvr.registerInfo = []) (h : run (Square.step env) s events = .ok t)
    (hperiod : place t.psvr.drawn ≤ 2 ^ 64) :
    (∀ m n, rng64 seed m = rng64 seed n ↔ m % 2 ^ 64 = n % 2 ^ 64) ∧
      (t.psvr.registerInfo.flatMap numbers).Nodup ∧
      (∀ row ∈ t.psvr.registerInfo,
        t.psvr.selectRegister row.clientId = if row.clientId < 2 ^ 63 then some row else none) ∧
      ∀ preq u res, preq.type = clientLogin → t.psvr.handle env preq = .ok u → u.2.pnr = some res →
        ∃ clientId passwd, ∃ row ∈ t.psvr.registerInfo,
          env.loginClientId preq.data = some clientId ∧ env.loginPasswd preq.data = some passwd ∧
          numbers row = [.ofInt clientId, .ofInt passwd] ∧
          ∀ row' ∈ t.psvr.registerInfo,
            .ofInt clientId ∈ numbers row' ∨ .ofInt passwd ∈ numbers row' → row' = row := by
  have hstart : Numbered env s := ⟨[], by simp [rows, hnone, hs.handled], by simp, by simp⟩
  have hnumbered : Numbered env t := run_invariant (fun _ _ _ hs hstep => hs.step hstep) hstart h
  have hnodup := hnumbered.nodup hplace hdraws hperiod
  refine ⟨rng64_eq_iff seed, hnodup, fun row hrow => selectRegister_row hnodup hrow, ?_⟩
  rintro preq ⟨u, handled⟩ res hlogin hhandle hres
  have hrows := (handle_drew hhandle).registerInfo
  cases handle_answered hhandle hres with
  | publicKey htype _ => exact absurd (hlogin.symm.trans htype) (by decide)
  | registered htype _ => exact absurd (hlogin.symm.trans htype) (by decide)
  | @login _ clientId passwd row hclient hpasswd hrow hid hsame =>
    rw [hrows] at hrow
    have hnumbers : numbers row = [.ofInt clientId, .ofInt passwd] := by rw [numbers, hid, hsame]
    refine ⟨clientId, passwd, row, hrow, hclient, hpasswd, hnumbers, ?_⟩
    rintro row' hrow' (hn | hn)
    · exact eq_of_number hnodup hrow' hrow hn (by rw [hnumbers]; simp)
    · exact eq_of_number hnodup hrow' hrow hn (by rw [hnumbers]; simp)

end

/-- A client registers and logs in with the fifth and the sixth number. -/
theorem clients_apart_login :
    ∃ t, run (Square.step sampleEnvironment) sampleSquare loginEvents = .ok t ∧
    (∀ m n, rng64 2 m = rng64 2 n ↔ m % 2 ^ 64 = n % 2 ^ 64) ∧
      (t.psvr.registerInfo.flatMap numbers).Nodup ∧
      (∀ row ∈ t.psvr.registerInfo,
        t.psvr.selectRegister row.clientId = if row.clientId < 2 ^ 63 then some row else none) ∧
      ∀ preq u res, preq.type = clientLogin → t.psvr.handle sampleEnvironment preq = .ok u →
      u.2.pnr = some res →
        ∃ clientId passwd, ∃ row ∈ t.psvr.registerInfo,
          sampleEnvironment.loginClientId preq.data = some clientId ∧
          sampleEnvironment.loginPasswd preq.data = some passwd ∧
          numbers row = [.ofInt clientId, .ofInt passwd] ∧
          ∀ row' ∈ t.psvr.registerInfo,
            .ofInt clientId ∈ numbers row' ∨ .ofInt passwd ∈ numbers row' → row' = row := by
  have hend : (run (Square.step sampleEnvironment) sampleSquare loginEvents).toOption.map
      (·.psvr.drawn) =
      some 10 := by
    decide +kernel
  cases h : run (Square.step sampleEnvironment) sampleSquare loginEvents with
  | error e =>
    rw [h] at hend
    cases hend
  | ok t =>
    rw [h] at hend
    have hdrawn : t.psvr.drawn = 10 := Option.some.inj hend
    refine ⟨t, rfl, clients_apart strictMono_id (fun _ => rfl) sampleSquare_started rfl h ?_⟩
    rw [hdrawn]
    decide

end NetCpp.Proofs
