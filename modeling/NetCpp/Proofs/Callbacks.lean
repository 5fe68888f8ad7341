import NetCpp.Proofs.Answers
import NetCpp.Proofs.Clicks

namespace NetCpp.Proofs
open Library Server SqeServer

/-- What the client has given its socket. -/
def given (clt : Client) : List Bytes :=
  clt.actions.flatMap (fun
    | .send _ _ datagrams => datagrams
    | .callback _ _ => [])

/-- The client sends its uploads and waits for answers to them, which it does not get. -/
structure Follows (bufsiz : Nat) (pub : PublicKeyClass) (ups : List Upload) (address : SockAddr)
    (clt : Client) : Prop where
  listeners : ∀ l ∈ clt.reqLst, ∃ u ∈ ups, u.address = address ∧ l.pReq = u.request ∧
    ∃ datagrams, u.datagrams bufsiz pub = .ok datagrams ∧ Client.sendRawData l.trwd = .ok datagrams
  sent : ∀ preq taddr datagrams, .send preq taddr datagrams ∈ clt.actions →
    ∃ u ∈ ups, u.address = address ∧ u.datagrams bufsiz pub = .ok datagrams
  resLst : clt.resLst = []
  callbacks : ∀ preq pres, .callback preq (some pres) ∉ clt.actions

/-- What the body of the loop that counts the clicks does. -/
theorem mem_clicked {l : RequestListener} {datagrams : List Bytes}
    (hsend : Client.sendRawData l.trwd = .ok datagrams) {a : ClientAction} (h : a ∈ (clicked l).2) :
    a = .send l.pReq l.pReq.tAddr datagrams ∨ a = .callback l.pReq none := by
  by_cases hactive : l.active = true
  · by_cases hclicks : l.clicks < l.timeout
    · rw [clicked_waiting hactive hclicks hsend] at h
      dsimp only at h
      split at h
      · exact .inl (List.mem_singleton.mp h)
      · cases h
    · rw [clicked_expired hactive hclicks] at h
      exact .inr (List.mem_singleton.mp h)
  · rw [clicked_inactive (Bool.eq_false_of_not_eq_true hactive)] at h
    cases h

section
variable {bufsiz : Nat} {pub : PublicKeyClass} {ups : List Upload} {address : SockAddr}
  {clt : Client}

namespace Follows

theorem start (sqePbc : PublicKeyClass) : Follows bufsiz pub ups address { sqePbc } where
  listeners := fun _ h => absurd h (List.not_mem_nil)
  sent := fun _ _ _ h => absurd h (List.not_mem_nil)
  resLst := rfl
  callbacks := fun _ _ h => absurd h (List.not_mem_nil)

theorem sends (h : Follows bufsiz pub ups address clt) : Sends clt := by
  intro l hl
  obtain ⟨-, -, -, -, datagrams, -, hsend⟩ := h.listeners l hl
  exact ⟨datagrams, hsend⟩

/-- What is given to the socket is what the uploads are sent as. -/
theorem mem_given (h : Follows bufsiz pub ups address clt) {str : Bytes} (hstr : str ∈ given clt) :
    ∃ u ∈ ups, u.address = address ∧ u.Sends bufsiz pub str := by
  obtain ⟨a, ha, hin⟩ := List.mem_flatMap.mp hstr
  cases a with
  | send preq taddr datagrams =>
    obtain ⟨u, hu, haddress, hdatagrams⟩ := h.sent preq taddr datagrams ha
    exact ⟨u, hu, haddress, datagrams, hdatagrams, hin⟩
  | callback preq pres => cases hin

theorem setPublicKey (h : Follows bufsiz pub ups address clt) (tPbc : PublicKeyClass) :
    Follows bufsiz pub ups address { clt with sqePbc := tPbc } :=
  ⟨h.listeners, h.sent, h.resLst, h.callbacks⟩

/-- The key that the client has only matters for what is to be encrypted. -/
theorem requestRawData_key {tPbc : PublicKeyClass} {preq : Request}
    (hkey : preq.ifEncrypt = true → tPbc = pub) (rand64 : UInt64) :
    Client.requestRawData bufsiz tPbc rand64 preq =
      Client.requestRawData bufsiz pub rand64 preq := by
  by_cases hencrypt : preq.ifEncrypt = true
  · rw [hkey hencrypt]
  · simp only [Client.requestRawData, if_neg hencrypt]

/-- A request that can be sent is, and a listener waits for its answer. -/
theorem request (h : Follows bufsiz pub ups address clt) {preq : Request} {rand64 : UInt64}
    (hu : { request := preq, rand64, address } ∈ ups) {datagrams : List Bytes}
    (hsent : Upload.datagrams bufsiz pub { request := preq, rand64, address } = .ok datagrams)
    (hkey : preq.ifEncrypt = true → clt.sqePbc = pub) (timeout : Int32) : ∃ clt',
      clt.newRequestListener bufsiz rand64 preq timeout = .ok clt' ∧
      Follows bufsiz pub ups address clt' := by
  obtain ⟨trwd, htrwd, hdatagrams⟩ := bind_ok hsent
  have hraw : Client.requestRawData bufsiz clt.sqePbc rand64 preq = .ok trwd :=
    (requestRawData_key hkey rand64).trans htrwd
  refine ⟨{ clt with
    reqLst := clt.reqLst ++ [{ pReq := preq, timeout := timeout.toUInt32, trwd }]
    actions := clt.actions ++ [.send preq preq.tAddr datagrams] }, ?_, ⟨?_, ?_, h.resLst, ?_⟩⟩
  · simp only [Client.newRequestListener, RequestListener.send, hraw, hdatagrams, bind, Except.bind]
    rfl
  · intro l hl
    rcases List.mem_append.mp hl with hold | hnew
    · exact h.listeners l hold
    · rw [List.mem_singleton.mp hnew]
      exact ⟨_, hu, rfl, rfl, datagrams, hsent, hdatagrams⟩
  · intro preq' taddr datagrams' ha
    rcases List.mem_append.mp ha with hold | hnew
    · exact h.sent preq' taddr datagrams' hold
    · obtain ⟨-, -, rfl⟩ := ClientAction.send.inj (List.mem_singleton.mp hnew)
      exact ⟨_, hu, rfl, hsent⟩
  · intro preq' pres ha
    rcases List.mem_append.mp ha with hold | hnew
    · exact h.callbacks preq' pres hold
    · cases List.mem_singleton.mp hnew

theorem click (h : Follows bufsiz pub ups address clt) :
    ∃ clt', clt.click = .ok clt' ∧ Follows bufsiz pub ups address clt' := by
  have hacts (a : ClientAction) (ha : a ∈ (clt.reqLst.map clicked).flatMap Prod.snd) :
      ∃ l ∈ clt.reqLst, ∃ datagrams, Client.sendRawData l.trwd = .ok datagrams ∧
        (a = .send l.pReq l.pReq.tAddr datagrams ∨ a = .callback l.pReq none) := by
    obtain ⟨r, hr, hin⟩ := List.mem_flatMap.mp ha
    obtain ⟨l, hl, rfl⟩ := List.mem_map.mp hr
    obtain ⟨datagrams, hsend⟩ := h.sends l hl
    exact ⟨l, hl, datagrams, hsend, mem_clicked hsend hin⟩
  refine ⟨_, click_eq h.sends, ⟨?_, ?_, h.resLst, ?_⟩⟩
  · intro l' hl'
    obtain ⟨r, hr, rfl⟩ := List.mem_map.mp (List.mem_filter.mp hl').1
    obtain ⟨l, hl, rfl⟩ := List.mem_map.mp hr
    rw [(own_clicked l).pReq, (own_clicked l).trwd]
    exact h.listeners l hl
  · intro preq taddr datagrams ha
    rcases List.mem_append.mp ha with hold | hnew
    · exact h.sent preq taddr datagrams hold
    · obtain ⟨l, hl, datagrams', hsend, hact | hact⟩ := hacts _ hnew
      · obtain ⟨-, -, rfl⟩ := ClientAction.send.inj hact
        obtain ⟨u, hu, haddress, -, datagrams'', hdatagrams, hsend'⟩ := h.listeners l hl
        obtain rfl := Except.ok.inj (hsend.symm.trans hsend')
        exact ⟨u, hu, haddress, hdatagrams⟩
      · cases hact
  · intro preq pres ha
    rcases List.mem_append.mp ha with hold | hnew
    · exact h.callbacks preq pres hold
    · obtain ⟨l, hl, datagrams', hsend, hact | hact⟩ := hacts _ hnew
      · cases hact
      · cases hact

theorem processRequestListener (h : Follows bufsiz pub ups address clt) :
    ∃ clt', clt.processRequestListener = .ok clt' ∧ Follows bufsiz pub ups address clt' := by
  have hsame : { clt.resLst.foldl Client.hear clt with resLst := [] } = clt := by
    rw [h.resLst, List.foldl_nil, ← h.resLst]
  rw [Client.processRequestListener, hsame]
  exact h.click

end Follows

end

end NetCpp.Proofs
