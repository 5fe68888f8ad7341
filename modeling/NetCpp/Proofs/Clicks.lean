import NetCpp.Client

namespace NetCpp.Proofs
open Library

/-- The id of the request that an action is for. -/
def actionId : ClientAction → UInt64
  | .send preq _ _ => preq.rId
  | .callback preq _ => preq.rId

/-- What the client has done for the request of this id. -/
def actionsOf (rId : UInt64) (actions : List ClientAction) : List ClientAction :=
  actions.filter (actionId · = rId)

/-- The listeners that wait for a response of this id. -/
def listenersOf (rId : UInt64) (reqLst : List RequestListener) : List RequestListener :=
  reqLst.filter (·.pReq.rId = rId)

@[simp] theorem actionsOf_append (rId : UInt64) (as bs : List ClientAction) :
    actionsOf rId (as ++ bs) = actionsOf rId as ++ actionsOf rId bs := List.filter_append as bs

@[simp] theorem listenersOf_append (rId : UInt64) (ls ms : List RequestListener) :
    listenersOf rId (ls ++ ms) = listenersOf rId ls ++ listenersOf rId ms :=
  List.filter_append ls ms

/-- What the body of a loop makes of a listener: it still waits for the same response, and
whatever was done was done for its request. -/
structure Own (lreq : RequestListener) (r : RequestListener × List ClientAction) : Prop where
  pReq : r.1.pReq = lreq.pReq
  trwd : r.1.trwd = lreq.trwd
  actions : ∀ a ∈ r.2, actionId a = lreq.pReq.rId

theorem own_self (lreq : RequestListener) : Own lreq (lreq, []) := ⟨rfl, rfl, by simp⟩

theorem own_hear (pres : Respond) (lreq : RequestListener) : Own lreq (lreq.hear pres) := by
  unfold RequestListener.hear
  split
  · exact own_self lreq
  · split
    · exact ⟨rfl, rfl, by simp [actionId]⟩
    · exact own_self lreq

variable {f : RequestListener → RequestListener × List ClientAction} {rId : UInt64}

theorem listenersOf_map (h : ∀ l, Own l (f l)) (ls : List RequestListener) :
    listenersOf rId ((ls.map f).map Prod.fst) = ((listenersOf rId ls).map f).map Prod.fst := by
  have hid : (fun l => decide (l.pReq.rId = rId)) ∘ (Prod.fst ∘ f) =
      fun l => decide (l.pReq.rId = rId) := by
    funext l
    simp [(h l).pReq]
  rw [listenersOf, List.map_map, List.filter_map, hid, List.map_map]
  rfl

theorem actionsOf_own {l : RequestListener} {r : RequestListener × List ClientAction}
    (h : Own l r) : actionsOf rId r.2 = if l.pReq.rId = rId then r.2 else [] := by
  rw [actionsOf]
  split
  · rename_i hid
    apply List.filter_eq_self.mpr
    intro a ha
    rw [h.actions a ha]
    exact decide_eq_true hid
  · rename_i hid
    apply List.filter_eq_nil_iff.mpr
    intro a ha
    rw [h.actions a ha]
    simpa using hid

theorem actionsOf_map (h : ∀ l, Own l (f l)) (ls : List RequestListener) :
    actionsOf rId ((ls.map f).flatMap Prod.snd) =
      ((listenersOf rId ls).map f).flatMap Prod.snd := by
  induction ls with
  | nil => rfl
  | cons l ls ih =>
    rw [List.map_cons, List.flatMap_cons, actionsOf_append, ih, actionsOf_own (h l)]
    by_cases hid : l.pReq.rId = rId
    · simp [listenersOf, hid]
    · simp [listenersOf, hid]

variable {clt : Client}

/-- What one response does to the listeners of an id and for it. -/
theorem hear_of (rId : UInt64) (clt : Client) (pres : Respond) :
    listenersOf rId (clt.hear pres).reqLst =
      ((listenersOf rId clt.reqLst).map (RequestListener.hear pres)).map Prod.fst ∧
    actionsOf rId (clt.hear pres).actions = actionsOf rId clt.actions ++
      ((listenersOf rId clt.reqLst).map (RequestListener.hear pres)).flatMap Prod.snd := by
  constructor
  · rw [Client.hear, listenersOf_map (own_hear pres)]
  · rw [Client.hear, actionsOf_append, actionsOf_map (own_hear pres)]

/-- Responses that no listener of the id takes. -/
theorem hears_deaf {resLst : List Respond}
    (h : ∀ l ∈ listenersOf rId clt.reqLst, ∀ pres ∈ resLst, l.hear pres = (l, [])) :
    listenersOf rId (resLst.foldl Client.hear clt).reqLst = listenersOf rId clt.reqLst ∧
      actionsOf rId (resLst.foldl Client.hear clt).actions = actionsOf rId clt.actions := by
  induction resLst generalizing clt with
  | nil => exact ⟨rfl, rfl⟩
  | cons pres resLst ih =>
    have hkept : (listenersOf rId clt.reqLst).map (RequestListener.hear pres) =
        (listenersOf rId clt.reqLst).map (fun l => (l, [])) := by
      apply List.map_congr_left
      intro l hl
      exact h l hl pres List.mem_cons_self
    obtain ⟨hlisteners, hactions⟩ := hear_of rId clt pres
    rw [hkept, List.map_map, Function.comp_def, List.map_id'] at hlisteners
    have hnone : (listenersOf rId clt.reqLst).flatMap (fun _ => ([] : List ClientAction)) = [] :=
      List.flatMap_eq_nil_iff.mpr (fun _ _ => rfl)
    rw [hkept, List.flatMap_map, hnone, List.append_nil] at hactions
    have hnext := @ih (clt.hear pres)
    rw [hlisteners, hactions] at hnext
    apply hnext
    intro l hl later hlater
    exact h l hl later (List.mem_cons_of_mem pres hlater)

theorem hears_none (h : listenersOf rId clt.reqLst = []) (resLst : List Respond) :
    listenersOf rId (resLst.foldl Client.hear clt).reqLst = [] ∧
      actionsOf rId (resLst.foldl Client.hear clt).actions = actionsOf rId clt.actions := by
  rw [← h]
  apply hears_deaf
  intro l hl
  rw [h] at hl
  cases hl

theorem hears_single {l : RequestListener} {resLst : List Respond}
    (h : listenersOf rId clt.reqLst = [l]) (hdeaf : ∀ pres ∈ resLst, l.hear pres = (l, [])) :
    listenersOf rId (resLst.foldl Client.hear clt).reqLst = [l] ∧
      actionsOf rId (resLst.foldl Client.hear clt).actions = actionsOf rId clt.actions := by
  rw [← h]
  apply hears_deaf
  intro m hm
  rw [h, List.mem_singleton] at hm
  rw [hm]
  exact hdeaf

/-- The first response of its id ends the wait of a listener, and no other one does. -/
theorem hears_active {l : RequestListener} (h : listenersOf rId clt.reqLst = [l])
    (hactive : l.active = true) (resLst : List Respond) :
    match resLst.find? (·.rId = rId) with
    | none => listenersOf rId (resLst.foldl Client.hear clt).reqLst = [l] ∧
      actionsOf rId (resLst.foldl Client.hear clt).actions = actionsOf rId clt.actions
    | some res =>
      listenersOf rId (resLst.foldl Client.hear clt).reqLst = [{ l with active := false }] ∧
      actionsOf rId (resLst.foldl Client.hear clt).actions =
        actionsOf rId clt.actions ++ [.callback l.pReq (some res)] := by
  have hid : l.pReq.rId = rId := by
    have hmem : l ∈ listenersOf rId clt.reqLst := by simp [h]
    simpa using (List.mem_filter.mp hmem).2
  have hother : ∀ pres : Respond, pres.rId ≠ rId → l.hear pres = (l, []) := by
    intro pres hne
    have hneq : ¬l.pReq.rId = pres.rId := fun heq => hne (heq.symm.trans hid)
    simp [RequestListener.hear, hneq]
  cases hfind : resLst.find? (·.rId = rId) with
  | none =>
    apply hears_single h
    intro pres hpres
    exact hother pres (by simpa using List.find?_eq_none.mp hfind pres hpres)
  | some res =>
    obtain ⟨hmatch, before, after, rfl, hbefore⟩ := List.find?_eq_some_iff_append.mp hfind
    obtain ⟨hlisteners, hactions⟩ := @hears_single rId clt l before h
      (fun pres hpres => hother pres (by simpa using hbefore pres hpres))
    have hheard : l.hear res = ({ l with active := false }, [.callback l.pReq (some res)]) := by
      simp [RequestListener.hear, hactive, hid.trans (of_decide_eq_true hmatch).symm]
    obtain ⟨hended, hcalled⟩ := hear_of rId (before.foldl Client.hear clt) res
    rw [hlisteners, List.map_singleton, hheard] at hended hcalled
    -- a listener that has had its response takes no other one
    have hdone : ∀ pres ∈ after, RequestListener.hear pres { l with active := false } =
        ({ l with active := false }, []) := fun pres _ => by simp [RequestListener.hear]
    obtain ⟨hlast, hsame⟩ := hears_single hended hdone
    rw [List.foldl_append, List.foldl_cons]
    refine ⟨hlast, ?_⟩
    rw [hsame, hcalled, hactions]
    rfl

theorem own_click {l : RequestListener} {r : RequestListener × List ClientAction}
    (h : l.click = .ok r) : Own l r := by
  unfold RequestListener.click at h
  split at h
  · cases h
    exact own_self l
  · split at h
    · simp only at h
      split at h
      · obtain ⟨sent, hsent, hr⟩ := bind_ok h
        obtain ⟨datagrams, -, hsend⟩ := bind_ok hsent
        cases hsend
        cases hr
        exact ⟨rfl, rfl, by simp [actionId]⟩
      · cases h
        exact ⟨rfl, rfl, by simp⟩
    · cases h
      exact ⟨rfl, rfl, by simp [actionId]⟩

/-- The result of a click that returns. -/
def clicked (l : RequestListener) : RequestListener × List ClientAction :=
  match l.click with
  | .ok r => r
  | .error _ => (l, [])

theorem own_clicked (l : RequestListener) : Own l (clicked l) := by
  unfold clicked
  split
  · rename_i hr
    exact own_click hr
  · exact own_self l

/-- Each listener can send again what it has sent before. -/
def Sends (clt : Client) : Prop :=
  ∀ l ∈ clt.reqLst, ∃ datagrams, Client.sendRawData l.trwd = .ok datagrams

theorem click_clicked {l : RequestListener} {datagrams : List Bytes}
    (h : Client.sendRawData l.trwd = .ok datagrams) : l.click = .ok (clicked l) := by
  have hsend : l.send = .ok (.send l.pReq l.pReq.tAddr datagrams) := by
    rw [RequestListener.send, h]
    rfl
  obtain ⟨r, hr⟩ : ∃ r, l.click = .ok r := by
    unfold RequestListener.click
    split
    · exact ⟨_, rfl⟩
    · split
      · simp only
        split
        · refine ⟨({ l with clicks := l.clicks + 1 }, [.send l.pReq l.pReq.tAddr datagrams]), ?_⟩
          rw [show RequestListener.send { l with clicks := l.clicks + 1 } = l.send from rfl, hsend]
          rfl
        · exact ⟨_, rfl⟩
      · exact ⟨_, rfl⟩
  rw [clicked, hr]

theorem click_eq (h : Sends clt) : clt.click = .ok { clt with
    reqLst := ((clt.reqLst.map clicked).map Prod.fst).filter RequestListener.active
    actions := clt.actions ++ (clt.reqLst.map clicked).flatMap Prod.snd } := by
  have hmap : clt.reqLst.mapM RequestListener.click = .ok (clt.reqLst.map clicked) := by
    apply mapM_ok
    intro l hl
    obtain ⟨datagrams, hd⟩ := h l hl
    exact click_clicked hd
  rw [Client.click, hmap]
  rfl

theorem sends_hears (h : Sends clt) (resLst : List Respond) :
    Sends (resLst.foldl Client.hear clt) := by
  induction resLst generalizing clt with
  | nil => exact h
  | cons pres resLst ih =>
    apply ih
    intro l hl
    simp only [Client.hear, List.map_map, List.mem_map, Function.comp_apply] at hl
    obtain ⟨m, hm, rfl⟩ := hl
    rw [(own_hear pres m).trwd]
    exact h m hm

theorem pass_returns (h : Sends clt) : ∃ clt', clt.processRequestListener = .ok clt' ∧
    clt'.resLst = [] ∧ Sends clt' := by
  have hheard : Sends { clt.resLst.foldl Client.hear clt with resLst := [] } :=
    sends_hears h clt.resLst
  refine ⟨_, click_eq hheard, rfl, ?_⟩
  intro l hl
  obtain ⟨r, hr, rfl⟩ := List.mem_map.mp (List.mem_filter.mp hl).1
  obtain ⟨m, hm, rfl⟩ := List.mem_map.mp hr
  rw [(own_clicked m).trwd]
  exact hheard m hm

/-- What the counting loop does to the listeners of one id and for it. -/
theorem pass_of {clt' : Client} (rId : UInt64) (h : Sends clt)
    (hpass : clt.processRequestListener = .ok clt') : listenersOf rId clt'.reqLst =
      (((listenersOf rId (clt.resLst.foldl Client.hear clt).reqLst).map clicked).map
        Prod.fst).filter RequestListener.active ∧
    actionsOf rId clt'.actions = actionsOf rId (clt.resLst.foldl Client.hear clt).actions ++
      ((listenersOf rId (clt.resLst.foldl Client.hear clt).reqLst).map clicked).flatMap
        Prod.snd := by
  have hheard : Sends { clt.resLst.foldl Client.hear clt with resLst := [] } :=
    sends_hears h clt.resLst
  rw [Client.processRequestListener, click_eq hheard] at hpass
  cases hpass
  constructor
  · rw [← listenersOf_map own_clicked, listenersOf, listenersOf, List.filter_comm]
  · rw [actionsOf_append, actionsOf_map own_clicked]

theorem clicked_inactive {l : RequestListener} (h : l.active = false) : clicked l = (l, []) := by
  simp [clicked, RequestListener.click, h]

theorem clicked_waiting {l : RequestListener} {datagrams : List Bytes} (h : l.active = true)
    (hclicks : l.clicks < l.timeout) (hsend : Client.sendRawData l.trwd = .ok datagrams) :
    clicked l = ({ l with clicks := l.clicks + 1 },
      if (l.clicks + 1) % 2 = 0 then [.send l.pReq l.pReq.tAddr datagrams] else []) := by
  by_cases heven : (l.clicks + 1) % 2 = 0
  · simp [clicked, RequestListener.click, RequestListener.send, h, hclicks, heven, hsend, bind,
      Except.bind, pure, Except.pure]
  · simp [clicked, RequestListener.click, h, hclicks, heven]

theorem clicked_expired {l : RequestListener} (h : l.active = true)
    (hclicks : ¬l.clicks < l.timeout) :
    clicked l = ({ l with active := false }, [.callback l.pReq none]) := by
  simp [clicked, RequestListener.click, h, hclicks]

/-- The listener of a request, as it was registered, after the passes that found these
responses for it: it waits, it has had its response, or it has been given up. -/
inductive Progress (l₀ : RequestListener) (datagrams : List Bytes) (answers : List (Option Respond))
    (listeners : List RequestListener) (actions : List ClientAction) : Prop where
  | waiting (hlen : answers.length ≤ l₀.timeout.toNat) (hnone : ∀ a ∈ answers, a = none)
      (hlisteners : listeners = [{ l₀ with clicks := .ofNat answers.length }])
      (hactions : actions =
        List.replicate (1 + answers.length / 2) (.send l₀.pReq l₀.pReq.tAddr datagrams))
  | answered (k : Nat) (res : Respond) (later : List (Option Respond)) (hk : k ≤ l₀.timeout.toNat)
      (hanswers : answers = List.replicate k none ++ some res :: later)
        (hlisteners : listeners = [])
      (hactions : actions = List.replicate (1 + k / 2) (.send l₀.pReq l₀.pReq.tAddr datagrams) ++
        [.callback l₀.pReq (some res)])
  | expired (later : List (Option Respond))
      (hanswers : answers = List.replicate (l₀.timeout.toNat + 1) none ++ later)
      (hlisteners : listeners = [])
      (hactions : actions =
        List.replicate (1 + l₀.timeout.toNat / 2) (.send l₀.pReq l₀.pReq.tAddr datagrams) ++
          [.callback l₀.pReq none])

theorem replicate_half {α : Type} (x : α) (n : Nat) :
    List.replicate (1 + n / 2) x ++ (if (n + 1) % 2 = 0 then [x] else []) =
      List.replicate (1 + (n + 1) / 2) x := by
  split
  · have hn : 1 + (n + 1) / 2 = 1 + n / 2 + 1 := by omega
    rw [hn, List.replicate_succ' (n := 1 + n / 2)]
  · have hn : 1 + (n + 1) / 2 = 1 + n / 2 := by omega
    rw [hn, List.append_nil]

/-- A pass with no response for a listener that waits. -/
theorem click_waiting {l₀ l : RequestListener} {datagrams : List Bytes} {n : Nat}
    (hactive : l₀.active = true) (hsend : Client.sendRawData l₀.trwd = .ok datagrams)
    (hl : l = { l₀ with clicks := .ofNat n }) (hn : n ≤ l₀.timeout.toNat) :
    clicked l = if n < l₀.timeout.toNat then
      ({ l₀ with clicks := .ofNat (n + 1) },
        if (n + 1) % 2 = 0 then [.send l₀.pReq l₀.pReq.tAddr datagrams] else [])
    else ({ l with active := false }, [.callback l₀.pReq none]) := by
  have hmax : l₀.timeout.toNat < 2 ^ 32 := l₀.timeout.toNat_lt
  have hclicks : (UInt32.ofNat n).toNat = n := by
    rw [UInt32.toNat_ofNat']
    omega
  have hlt : UInt32.ofNat n < l₀.timeout ↔ n < l₀.timeout.toNat := by
    rw [UInt32.lt_iff_toNat_lt, hclicks]
  subst hl
  split
  · rename_i hless
    have hsucc : UInt32.ofNat n + 1 = UInt32.ofNat (n + 1) := (UInt32.ofNat_add n 1).symm
    have hnext : (UInt32.ofNat (n + 1)).toNat = n + 1 := by
      rw [UInt32.toNat_ofNat']
      omega
    have heven : UInt32.ofNat (n + 1) % 2 = 0 ↔ (n + 1) % 2 = 0 := by
      rw [← UInt32.toNat_inj, UInt32.toNat_mod, hnext]
      rfl
    have hstep :=
      @clicked_waiting { l₀ with clicks := .ofNat n } datagrams hactive (hlt.mpr hless) hsend
    rw [hstep]
    simp only [hsucc, heven]
  · rename_i hless
    exact clicked_expired hactive (fun h => hless (hlt.mp h))

theorem Progress.pass {l₀ : RequestListener} {datagrams : List Bytes}
    {answers : List (Option Respond)} {clt' : Client}
    (h : Progress l₀ datagrams answers (listenersOf rId clt.reqLst)
      (actionsOf rId clt.actions))
    (hactive : l₀.active = true) (hsend : Client.sendRawData l₀.trwd = .ok datagrams)
    (hsends : Sends clt) (hpass : clt.processRequestListener = .ok clt') :
    Progress l₀ datagrams (answers ++ [clt.resLst.find? (·.rId = rId)])
    (listenersOf rId clt'.reqLst)
      (actionsOf rId clt'.actions) := by
  obtain ⟨hreq, hact⟩ := pass_of rId hsends hpass
  rw [hreq, hact]
  cases h with
  | waiting hlen hnone hlisteners hactions =>
    have hall : answers = List.replicate answers.length none :=
      List.eq_replicate_iff.mpr ⟨rfl, hnone⟩
    have hheard := hears_active hlisteners hactive clt.resLst
    cases hfind : clt.resLst.find? (·.rId = rId) with
    | some res =>
      simp only [hfind] at hheard
      refine .answered answers.length res [] hlen (by rw [← hall]) ?_ ?_
      · rw [hheard.1]
        simp [clicked_inactive]
      · rw [hheard.1, hheard.2, hactions]
        simp [clicked_inactive]
    | none =>
      simp only [hfind] at hheard
      have hclick := click_waiting hactive hsend rfl hlen
      rw [hheard.1, hheard.2, hactions]
      by_cases hless : answers.length < l₀.timeout.toNat
      · rw [if_pos hless] at hclick
        refine .waiting ?_ ?_ ?_ ?_
        · simpa using hless
        · intro a ha
          rcases List.mem_append.mp ha with hold | hnew
          · exact hnone a hold
          · exact List.mem_singleton.mp hnew
        · simp only [List.map_cons, List.map_nil, hclick]
          simp [hactive]
        · rw [List.length_append, List.length_singleton, ← replicate_half]
          simp [hclick]
      · have hfull : answers.length = l₀.timeout.toNat := by omega
        rw [if_neg hless] at hclick
        refine .expired [] ?_ ?_ ?_
        · rw [hall, hfull, List.append_nil, List.replicate_succ']
        · simp [hclick]
        · rw [← hfull]
          simp [hclick]
  | answered k res later hk hanswers hlisteners hactions =>
    obtain ⟨hnone, hsame⟩ := hears_none hlisteners clt.resLst
    refine .answered k res (later ++ [clt.resLst.find? (·.rId = rId)]) hk (by simp [hanswers]) ?_ ?_
    · simp [hnone]
    · simp [hnone, hsame, hactions]
  | expired later hanswers hlisteners hactions =>
    obtain ⟨hnone, hsame⟩ := hears_none hlisteners clt.resLst
    refine .expired (later ++ [clt.resLst.find? (·.rId = rId)]) (by simp [hanswers]) ?_ ?_
    · simp [hnone]
    · simp [hnone, hsame, hactions]

/-- The ids of the requests that these events register. -/
def registered (events : List ClientEvent) : List UInt64 :=
  events.filterMap fun e =>
    match e with
    | .newRequestListener preq _ _ => some preq.rId
    | _ => none

/-- For each pass of these events the first response of the id that is on the list at that time,
where the list starts with the given responses. -/
def answersAt (rId : UInt64) : List Respond → List ClientEvent → List (Option Respond)
  | _, [] => []
  | resLst, .respond pres :: events => answersAt rId (resLst ++ [pres]) events
  | resLst, .processRequestListener :: events =>
    resLst.find? (·.rId = rId) :: answersAt rId [] events
  | resLst, _ :: events => answersAt rId resLst events

theorem newRequestListener_ok {bufsiz : Nat} {rand64 : UInt64} {preq : Request} {timeout : Int32}
    {clt' : Client} (h : clt.newRequestListener bufsiz rand64 preq timeout = .ok clt') :
    ∃ trwd datagrams, Client.requestRawData bufsiz clt.sqePbc rand64 preq = .ok trwd ∧
      Client.sendRawData trwd = .ok datagrams ∧
      clt' = { clt with
        reqLst := clt.reqLst ++ [{ pReq := preq, timeout := timeout.toUInt32, trwd }]
        actions := clt.actions ++ [.send preq preq.tAddr datagrams] } := by
  obtain ⟨trwd, htrwd, h⟩ := bind_ok h
  obtain ⟨sent, hsent, h⟩ := bind_ok h
  obtain ⟨datagrams, hdatagrams, hsend⟩ := bind_ok hsent
  cases hsend
  cases h
  exact ⟨trwd, datagrams, htrwd, hdatagrams, rfl⟩

theorem sends_step {bufsiz : Nat} {clt' : Client} {e : ClientEvent} (h : Sends clt)
    (hstep : clt.step bufsiz e = .ok clt') : Sends clt' := by
  cases e with
  | newRequestListener preq timeout rand64 =>
    obtain ⟨trwd, datagrams, -, hdatagrams, rfl⟩ := newRequestListener_ok hstep
    intro l hl
    rcases List.mem_append.mp hl with hold | hnew
    · exact h l hold
    · rw [List.mem_singleton.mp hnew]
      exact ⟨datagrams, hdatagrams⟩
  | respond pres =>
    cases hstep
    exact h
  | processRequestListener =>
    obtain ⟨clt₁, hpass, -, hsends⟩ := pass_returns h
    cases hpass.symm.trans hstep
    exact hsends
  | setPublicKey tPbc =>
    cases hstep
    exact h

/-- Nothing waits for this id, and nothing has been done for it. -/
structure Unknown (rId : UInt64) (clt : Client) : Prop where
  sends : Sends clt
  listeners : listenersOf rId clt.reqLst = []
  actions : actionsOf rId clt.actions = []

theorem listenersOf_other {l : RequestListener} (h : l.pReq.rId ≠ rId) :
    listenersOf rId [l] = [] := by
  simp [listenersOf, h]

theorem actionsOf_other {preq : Request} {addr : SockAddr} {datagrams : List Bytes}
    (h : preq.rId ≠ rId) : actionsOf rId [.send preq addr datagrams] = [] := by
  simp [actionsOf, actionId, h]

/-- Only a pass and its own registration do something for a request. -/
theorem frame_step {bufsiz : Nat} {clt' : Client} {e : ClientEvent}
    (hpass : e ≠ .processRequestListener) (hother : rId ∉ registered [e])
    (hstep : clt.step bufsiz e = .ok clt') :
    listenersOf rId clt'.reqLst = listenersOf rId clt.reqLst ∧
      actionsOf rId clt'.actions = actionsOf rId clt.actions := by
  cases e with
  | newRequestListener preq timeout rand64 =>
    obtain ⟨trwd, datagrams, -, -, rfl⟩ := newRequestListener_ok hstep
    have hne : preq.rId ≠ rId := by
      intro heq
      exact hother (by simp [registered, heq])
    constructor
    · rw [listenersOf_append, listenersOf_other hne, List.append_nil]
    · rw [actionsOf_append, actionsOf_other hne, List.append_nil]
  | respond pres =>
    cases hstep
    exact ⟨rfl, rfl⟩
  | processRequestListener => exact absurd rfl hpass
  | setPublicKey tPbc =>
    cases hstep
    exact ⟨rfl, rfl⟩

theorem Unknown.step {bufsiz : Nat} {clt' : Client} {e : ClientEvent} (h : Unknown rId clt)
    (hother : rId ∉ registered [e]) (hstep : clt.step bufsiz e = .ok clt') : Unknown rId clt' := by
  have hsends := sends_step h.sends hstep
  by_cases hpass : e = .processRequestListener
  · subst hpass
    obtain ⟨hlisteners, hactions⟩ := pass_of rId h.sends hstep
    obtain ⟨hnone, hsame⟩ := hears_none h.listeners clt.resLst
    refine ⟨hsends, ?_, ?_⟩
    · rw [hlisteners, hnone]
      rfl
    · rw [hactions, hnone, hsame, h.actions]
      rfl
  · obtain ⟨hlisteners, hactions⟩ := frame_step hpass hother hstep
    exact ⟨hsends, hlisteners.trans h.listeners, hactions.trans h.actions⟩

theorem registered_cons (e : ClientEvent) (events : List ClientEvent) :
    registered (e :: events) = registered [e] ++ registered events :=
  List.filterMap_append (l := [e])

theorem registered_append (past events : List ClientEvent) :
    registered (past ++ events) = registered past ++ registered events := List.filterMap_append

theorem Unknown.run {bufsiz : Nat} {clt' : Client} {events : List ClientEvent} (h : Unknown rId clt)
    (hother : rId ∉ registered events) (hrun : run (Client.step bufsiz) clt events = .ok clt') :
    Unknown rId clt' := by
  induction events generalizing clt with
  | nil =>
    cases hrun
    exact h
  | cons e events ih =>
    rw [registered_cons, List.mem_append, not_or] at hother
    obtain ⟨clt₁, hstep, hrest⟩ := run_cons_inv hrun
    exact ih (h.step hother.1 hstep) hother.2 hrest

/-- What the passes of a run do for a request that is registered. -/
theorem Progress.run {bufsiz : Nat} {l₀ : RequestListener} {datagrams : List Bytes}
    {answers : List (Option Respond)} {clt' : Client} {events : List ClientEvent}
    (h : Progress l₀ datagrams answers (listenersOf rId clt.reqLst) (actionsOf rId clt.actions))
    (hactive : l₀.active = true) (hsend : Client.sendRawData l₀.trwd = .ok datagrams)
    (hsends : Sends clt) (hother : rId ∉ registered events)
    (hrun : run (Client.step bufsiz) clt events = .ok clt') :
    Progress l₀ datagrams (answers ++ answersAt rId clt.resLst events) (listenersOf rId clt'.reqLst)
      (actionsOf rId clt'.actions) := by
  induction events generalizing clt answers with
  | nil =>
    cases hrun
    rwa [answersAt, List.append_nil]
  | cons e events ih =>
    rw [registered_cons, List.mem_append, not_or] at hother
    obtain ⟨clt₁, hstep, hrest⟩ := run_cons_inv hrun
    have hsends₁ := sends_step hsends hstep
    by_cases hpass : e = .processRequestListener
    · subst hpass
      obtain ⟨clt₂, hreturns, hempty, -⟩ := pass_returns hsends
      obtain rfl := Except.ok.inj (hreturns.symm.trans hstep)
      have hnext := ih (h.pass hactive hsend hsends hstep) hsends₁ hother.2 hrest
      rw [hempty, List.append_assoc] at hnext
      exact hnext
    · obtain ⟨hlisteners, hactions⟩ := frame_step hpass hother.1 hstep
      rw [← hlisteners, ← hactions] at h
      have hnext := ih h hsends₁ hother.2 hrest
      -- a response joins the list, the other events leave it as it is
      cases e with
      | newRequestListener preq timeout rand64 =>
        obtain ⟨trwd, others, -, -, rfl⟩ := newRequestListener_ok hstep
        exact hnext
      | respond pres =>
        cases hstep
        exact hnext
      | processRequestListener => exact absurd rfl hpass
      | setPublicKey tPbc =>
        cases hstep
        exact hnext

/-- A run stops only at a request that cannot be sent at all. -/
theorem run_returns_or {bufsiz : Nat} (h : Sends clt) (events : List ClientEvent) :
    (∃ clt', run (Client.step bufsiz) clt events = .ok clt') ∨
      ∃ past preq timeout rand64 rest clt₁ e,
        events = past ++ .newRequestListener preq timeout rand64 :: rest ∧
        run (Client.step bufsiz) clt past = .ok clt₁ ∧
        clt₁.newRequestListener bufsiz rand64 preq timeout = .error e := by
  induction events generalizing clt with
  | nil => exact .inl ⟨clt, rfl⟩
  | cons e events ih =>
    cases hstep : clt.step bufsiz e with
    | ok clt₁ =>
      rcases ih (sends_step h hstep) with ⟨clt', hrun⟩ |
        ⟨past, preq, timeout, rand64, rest, clt₂, why, rfl, hrun, hfails⟩
      · exact .inl ⟨clt', by rwa [run_cons_ok hstep]⟩
      · exact .inr ⟨e :: past, preq, timeout, rand64, rest, clt₂, why, rfl,
          by rwa [run_cons_ok hstep], hfails⟩
    | error why =>
      cases e with
      | newRequestListener preq timeout rand64 =>
        exact .inr ⟨[], preq, timeout, rand64, events, clt, why, rfl, rfl, hstep⟩
      | respond pres => cases hstep
      | processRequestListener =>
        obtain ⟨clt₁, hpass, -⟩ := pass_returns h
        cases hpass.symm.trans hstep
      | setPublicKey tPbc => cases hstep

def isCallback : ClientAction → Bool
  | .send .. => false
  | .callback .. => true

/-- All that is done for a request with this timeout, of which the passes after its registration
find these responses: it is sent, again on every second pass, until there is a response or the
time is over, and then its callback is invoked, once. -/
structure Served (timeout : Nat) (answers : List (Option Respond)) (preq : Request)
    (datagrams : List Bytes) (actions : List ClientAction) : Prop where
  once : actions.countP isCallback ≤ 1
  answered : ∀ k res, k ≤ timeout → (∀ j < k, answers[j]? = some none) →
    answers[k]? = some (some res) →
    actions = List.replicate (1 + min timeout k / 2) (.send preq preq.tAddr datagrams) ++
      [.callback preq (some res)]
  expired : (∀ j ≤ timeout, answers[j]? = some none) →
    actions = List.replicate (1 + timeout / 2) (.send preq preq.tAddr datagrams) ++
      [.callback preq none]
  waiting : answers.length ≤ timeout → (∀ a ∈ answers, a = none) →
    actions = List.replicate (1 + answers.length / 2) (.send preq preq.tAddr datagrams)

theorem countP_sends (n : Nat) (preq : Request) (datagrams : List Bytes) :
    (List.replicate n (ClientAction.send preq preq.tAddr datagrams)).countP isCallback = 0 := by
  rw [List.countP_replicate]
  rfl

theorem getElem?_replicate_append {k : Nat} (later : List (Option Respond)) {j : Nat} (hj : j < k) :
    (List.replicate k none ++ later)[j]? = some none := by
  rw [List.getElem?_append_left (by simpa using hj), List.getElem?_replicate, if_pos hj]

theorem Progress.served {l₀ : RequestListener} {datagrams : List Bytes}
    {answers : List (Option Respond)} {listeners : List RequestListener}
    {actions : List ClientAction} (h : Progress l₀ datagrams answers listeners actions) :
    Served l₀.timeout.toNat answers l₀.pReq datagrams actions := by
  cases h with
  | waiting hlen hnone hlisteners hactions =>
    refine ⟨?_, ?_, ?_, fun _ _ => hactions⟩
    · rw [hactions, countP_sends]
      exact Nat.zero_le 1
    · intro k res _ _ hres
      cases hnone _ (List.mem_of_getElem? hres)
    · intro hnever
      obtain ⟨hlt, -⟩ := List.getElem?_eq_some_iff.mp (hnever _ (Nat.le_refl _))
      omega
  | answered k res later hk hanswers hlisteners hactions =>
    have hhere : answers[k]? = some (some res) := by simp [hanswers]
    have hbefore : ∀ j < k, answers[j]? = some none := by
      intro j hj
      rw [hanswers]
      exact getElem?_replicate_append _ hj
    refine ⟨?_, ?_, ?_, ?_⟩
    · rw [hactions, List.countP_append, countP_sends]
      exact Nat.le_refl 1
    · intro k' res' hk' hbefore' hres'
      -- the first response is the same one
      rcases Nat.lt_trichotomy k' k with hlt | rfl | hgt
      · cases hres'.symm.trans (hbefore k' hlt)
      · cases hres'.symm.trans hhere
        rw [hactions, Nat.min_eq_right hk]
      · cases hhere.symm.trans (hbefore' k hgt)
    · intro hnever
      cases hhere.symm.trans (hnever k hk)
    · intro _ hnone
      cases hnone _ (List.mem_of_getElem? hhere)
  | expired later hanswers hlisteners hactions =>
    have hbefore : ∀ j < l₀.timeout.toNat + 1, answers[j]? = some none := by
      intro j hj
      rw [hanswers]
      exact getElem?_replicate_append _ hj
    refine ⟨?_, ?_, fun _ => hactions, ?_⟩
    · rw [hactions, List.countP_append, countP_sends]
      exact Nat.le_refl 1
    · intro k res hk _ hres
      cases hres.symm.trans (hbefore k (Nat.lt_succ_of_le hk))
    · intro hlen _
      rw [hanswers, List.length_append, List.length_replicate] at hlen
      omega

/-- Every request of a run is served, whatever else is registered and arrives, and the run goes on
unless a request cannot be sent. -/
theorem requests_served {bufsiz : Nat} {sqePbc : PublicKeyClass} {events : List ClientEvent}
    (hdistinct : (registered events).Nodup) :
    (∀ past preq timeout rand64 rest clt,
      events = past ++ .newRequestListener preq timeout rand64 :: rest →
      run (Client.step bufsiz) { sqePbc } events = .ok clt →
      ∃ clt₀ trwd datagrams, run (Client.step bufsiz) { sqePbc } past = .ok clt₀ ∧
        Client.requestRawData bufsiz clt₀.sqePbc rand64 preq = .ok trwd ∧
        Client.sendRawData trwd = .ok datagrams ∧
        Served timeout.toUInt32.toNat (answersAt preq.rId clt₀.resLst rest) preq datagrams
          (actionsOf preq.rId clt.actions)) ∧
    ((∃ clt, run (Client.step bufsiz) { sqePbc } events = .ok clt) ∨
      ∃ past preq timeout rand64 rest clt e,
        events = past ++ .newRequestListener preq timeout rand64 :: rest ∧
        run (Client.step bufsiz) { sqePbc } past = .ok clt ∧
        clt.newRequestListener bufsiz rand64 preq timeout = .error e) := by
  have hsends : Sends { sqePbc } := by
    intro l hl
    cases hl
  refine ⟨?_, run_returns_or hsends events⟩
  intro past preq timeout rand64 rest clt hevents hrun
  subst hevents
  rw [registered_append, registered_cons, List.nodup_append] at hdistinct
  obtain ⟨-, hlater, hbefore⟩ := hdistinct
  have hnew : preq.rId ∉ registered past := by
    intro hmem
    exact hbefore _ hmem preq.rId (by simp [registered]) rfl
  have hrest : preq.rId ∉ registered rest := (List.nodup_cons.mp hlater).1
  obtain ⟨clt₀, hpast, hrun⟩ := run_append_inv hrun
  obtain ⟨clt₁, hstep, hrun⟩ := run_cons_inv hrun
  have hunknown : Unknown preq.rId clt₀ := Unknown.run ⟨hsends, rfl, rfl⟩ hnew hpast
  obtain ⟨trwd, datagrams, htrwd, hdatagrams, heq⟩ := newRequestListener_ok hstep
  have hstart : Progress { pReq := preq, timeout := timeout.toUInt32, trwd } datagrams []
      (listenersOf preq.rId clt₁.reqLst) (actionsOf preq.rId clt₁.actions) := by
    refine .waiting (Nat.zero_le _) (by simp) ?_ ?_
    · rw [heq, listenersOf_append, hunknown.listeners]
      simp [listenersOf]
    · rw [heq, actionsOf_append, hunknown.actions]
      simp [actionsOf, actionId]
  have hend := hstart.run rfl hdatagrams (sends_step hunknown.sends hstep) hrest hrun
  have hresLst : clt₁.resLst = clt₀.resLst := by rw [heq]
  rw [List.nil_append, hresLst] at hend
  exact ⟨clt₀, trwd, datagrams, hpast, htrwd, hdatagrams, hend.served⟩

def clickRequest (rId : UInt64) : Request where
  rId
  type := ascii ['h', 'i']
  data := []
  recvPort := 9050
  tAddr := Vector.replicate 16 0

def clickRespond (rId : UInt64) (type : Byte) : Respond where
  rId
  type := [type]
  buff := []
  tAddr := Vector.replicate 16 0

/-- One request is answered twice, between a response that nobody waits for and the next request,
which is not answered. -/
def clickEvents : List ClientEvent :=
  [.newRequestListener (clickRequest 7) 3 1, .processRequestListener, .respond (clickRespond 5 0),
    .respond (clickRespond 7 1), .newRequestListener (clickRequest 9) 1 2,
    .respond (clickRespond 7 2),
    .processRequestListener, .processRequestListener, .processRequestListener]

theorem requests_served_clicks : ∃ clt datagrams datagrams',
    run (Client.step 256) { sqePbc := ⟨35, 5⟩ } clickEvents = .ok clt ∧
    Served 3 [none, some (clickRespond 7 1), none, none] (clickRequest 7) datagrams
      (actionsOf 7 clt.actions) ∧
    Served 1 [none, none, none] (clickRequest 9) datagrams' (actionsOf 9 clt.actions) := by
  have hok : (run (Client.step 256) { sqePbc := ⟨35, 5⟩ } clickEvents).isOk = true := by
    decide +kernel
  obtain ⟨clt, hclt⟩ := exists_of_isOk hok
  have hserved := (@requests_served 256 ⟨35, 5⟩ clickEvents (by decide)).1
  obtain ⟨clt₀, trwd, datagrams, hpast, -, -, hfirst⟩ :=
    hserved [] (clickRequest 7) 3 1 (clickEvents.drop 1) clt rfl hclt
  obtain ⟨clt₁, trwd', datagrams', hpast', -, -, hsecond⟩ :=
    hserved (clickEvents.take 4) (clickRequest 9) 1 2 (clickEvents.drop 5) clt rfl hclt
  cases hpast
  have hwaiting :
      (run (Client.step 256) { sqePbc := ⟨35, 5⟩ } (clickEvents.take 4)).map Client.resLst =
      .ok [clickRespond 5 0, clickRespond 7 1] := by decide +kernel
  rw [hpast'] at hwaiting
  rw [Except.ok.inj hwaiting] at hsecond
  exact ⟨clt, datagrams, datagrams', hclt, hfirst, hsecond⟩

end NetCpp.Proofs
