import NetCpp.SquareServer
import NetCpp.Proofs.Posts

namespace NetCpp.Proofs
open Library SqeServer

/-- The row of a login with the right credentials, if the client has the status 0. -/
def loginRow (env : Environment) (psvr : SqeServer) (preq : Request) : Option RegisterInfo := do
  let clientId ← env.loginClientId preq.data
  let row ← psvr.selectRegister (.ofInt clientId)
  let passwd ← env.loginPasswd preq.data
  if row.passwd = .ofInt passwd ∧ row.status = 0 then some row else none

/-- What a request does to the server before its statement is executed. The drawn numbers are
left open. -/
inductive Effect (env : Environment) (psvr : SqeServer) (preq : Request) :
    SqeServer → Handled → Prop where
  | nothing (drawn : Nat) (pnr : Option Respond)
      (hprivate : preq.type = privateRequest → psvr.rids.contains preq.rId = true) :
      Effect env psvr preq { psvr with drawn } { pnr }
  | register (drawn : Nat) (pclr : ClientRegister) (row : RegisterInfo) (pnr : Option Respond)
      (hprivate : preq.type = privateRequest) (hnew : psvr.rids.contains preq.rId = false)
      (hclick : pclr.click = 99999) (hid : row.clientId = pclr.clientId)
        (hstatus : row.status = 0) :
      Effect env psvr preq
        { psvr with
          drawn
          clientLst := psvr.clientLst.insertIfNew pclr.clientId pclr
          deamons := psvr.deamons ++ [{ pclr }]
          rids := psvr.rids.insertIfNew preq.rId pclr }
        { psqlsmt := some (.insertInfo row), pnr }
  | login (drawn : Nat) (pclr : ClientRegister) (row : RegisterInfo) (pnr : Option Respond)
      (hlogin : preq.type = clientLogin) (hrow : loginRow env psvr preq = some row)
      (hid : pclr.clientId = row.clientId) (hclick : pclr.click = 0) :
      Effect env psvr preq
        { psvr with
          drawn
          deamons := psvr.deamons ++ [{ pclr }]
          rids := psvr.rids.insertIfNew preq.rId pclr }
        { psqlsmt := some (.updateStatus 1 pclr.clientId), pnr }

variable {env : Environment} {psvr t : SqeServer} {preq : Request} {handled : Handled}

theorem selectRegister_clientId {clientId : UInt64} {row : RegisterInfo}
    (h : psvr.selectRegister clientId = some row) : row.clientId = clientId := by
  have hfound := List.find?_some h
  simp only [decide_eq_true_eq] at hfound
  exact hfound.2

theorem register_effect {smt : Statement} {pnr : Option Respond}
    (hprivate : preq.type = privateRequest) (hnew : psvr.rids.contains preq.rId = false)
    (h : psvr.register env preq = .ok (t, smt)) :
    Effect env psvr preq t { psqlsmt := some smt, pnr } := by
  rw [SqeServer.register] at h
  split at h
  · cases h
  · obtain ⟨key, -, h⟩ := bind_ok h
    obtain ⟨rfl, rfl⟩ := Prod.mk.inj (Except.ok.inj h)
    exact .register _ _ _ pnr hprivate hnew rfl rfl rfl

theorem handleLogin_effect (hlogin : preq.type = clientLogin)
    (h : psvr.handleLogin env preq = .ok (t, handled)) : Effect env psvr preq t handled := by
  have hne : clientLogin ≠ privateRequest := by decide
  have hno : preq.type = privateRequest → psvr.rids.contains preq.rId = true :=
    fun hp => absurd (hlogin.symm.trans hp) hne
  rw [handleLogin] at h
  split at h
  · cases h
  · rename_i clientId hclient
    split at h
    · obtain ⟨rfl, rfl⟩ := Prod.mk.inj (Except.ok.inj h)
      exact .nothing (psvr.drawn + 4) none hno
    · rename_i row hrow
      split at h
      · cases h
      · rename_i passwd hpass
        split at h
        · obtain ⟨rfl, rfl⟩ := Prod.mk.inj (Except.ok.inj h)
          exact .nothing (psvr.drawn + 4) none hno
        · rename_i hpasswd
          simp only at h
          split at h
          · rename_i hstatus
            obtain ⟨rfl, rfl⟩ := Prod.mk.inj (Except.ok.inj h)
            have hfound : loginRow env psvr preq = some row := by
              simp [loginRow, hclient, hrow, hpass, not_not.mp hpasswd, hstatus]
            exact .login _ _ row _ hlogin hfound (selectRegister_clientId hrow).symm rfl
          · obtain ⟨rfl, rfl⟩ := Prod.mk.inj (Except.ok.inj h)
            exact .nothing (psvr.drawn + 4) _ hno

theorem handle_effect (h : psvr.handle env preq = .ok (t, handled)) :
    Effect env psvr preq t handled := by
  rw [handle] at h
  by_cases hpublic : preq.type = publicRequest
  · have hne : publicRequest ≠ privateRequest := by decide
    have hno : preq.type = privateRequest → psvr.rids.contains preq.rId = true :=
      fun hp => absurd (hpublic.symm.trans hp) hne
    rw [if_pos hpublic] at h
    split at h
    · obtain ⟨rfl, rfl⟩ := Prod.mk.inj (Except.ok.inj h)
      exact .nothing psvr.drawn _ hno
    · obtain ⟨rfl, rfl⟩ := Prod.mk.inj (Except.ok.inj h)
      exact .nothing psvr.drawn none hno
  rw [if_neg hpublic] at h
  by_cases hprivate : preq.type = privateRequest
  · simp only [if_pos hprivate] at h
    by_cases hknown : psvr.rids.contains preq.rId = true
    · rw [if_pos hknown] at h
      obtain ⟨rfl, rfl⟩ := Prod.mk.inj (Except.ok.inj h)
      exact .nothing psvr.drawn _ (fun _ => hknown)
    · rw [if_neg hknown] at h
      obtain ⟨⟨u, smt⟩, hreg, h⟩ := bind_ok h
      obtain ⟨rfl, rfl⟩ := Prod.mk.inj (Except.ok.inj h)
      exact register_effect hprivate (Bool.eq_false_of_not_eq_true hknown) hreg
  rw [if_neg hprivate] at h
  by_cases hlogin : preq.type = clientLogin
  · rw [if_pos hlogin] at h
    exact handleLogin_effect hlogin h
  · rw [if_neg hlogin] at h
    obtain ⟨rfl, rfl⟩ := Prod.mk.inj (Except.ok.inj h)
    exact .nothing psvr.drawn none (fun hp => absurd hp hprivate)

/-- The packet of an answer. -/
def answer (res : Respond) : AddressedPacket where
  type := respondType
  buffs := [word64 res.rId, res.tAddr.toList, res.type, res.buff].map textBlock
  address := res.tAddr

theorem respond2Packet_ok (res : Respond) : respond2Packet res = .ok (answer res) := by
  rw [respond2Packet, addBuffs_ok]
  rfl

/-- The server after the statement of a request. -/
def executed (psvr : SqeServer) (smt : Option Statement) : SqeServer :=
  match smt with
  | none => psvr
  | some smt => psvr.exec smt

section
variable (smt : Option Statement)

@[simp] theorem executed_deamons : (executed psvr smt).deamons = psvr.deamons := by
  rcases smt with _ | smt | smt <;> rfl

@[simp] theorem executed_clientLst : (executed psvr smt).clientLst = psvr.clientLst := by
  rcases smt with _ | smt | smt <;> rfl

@[simp] theorem executed_rids : (executed psvr smt).rids = psvr.rids := by
  rcases smt with _ | smt | smt <;> rfl

@[simp] theorem executed_reqList : (executed psvr smt).reqList = psvr.reqList := by
  rcases smt with _ | smt | smt <;> rfl

@[simp] theorem executed_packetsOut : (executed psvr smt).packetsOut = psvr.packetsOut := by
  rcases smt with _ | smt | smt <;> rfl

end

theorem commit_ok (psvr : SqeServer) (handled : Handled) : psvr.commit handled =
    .ok { executed psvr handled.psqlsmt with
      packetsOut := psvr.packetsOut ++ (handled.pnr.map answer).toList } := by
  obtain ⟨smt, pnr⟩ := handled
  have hstatement : psvr.commit ⟨smt, pnr⟩ = (executed psvr smt).commit ⟨none, pnr⟩ := by
    cases smt <;> rfl
  rw [hstatement]
  cases pnr with
  | none =>
    simp only [Option.map_none, Option.toList_none, List.append_nil]
    rw [← executed_packetsOut smt]
    rfl
  | some res =>
    simp only [commit, respond2Packet_ok, executed_packetsOut]
    rfl

end NetCpp.Proofs
