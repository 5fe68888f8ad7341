import NetCpp.Proofs.Pushes
import NetCpp.Proofs.Words

namespace NetCpp.Proofs
open Library Server

def bIdOf (str : Bytes) : UInt64 := ofWord64 ((str.drop 4).take 8)

def idxOf (str : Bytes) : UInt16 := ofWord16 ((str.drop 12).take 2)

def cntOf (str : Bytes) : UInt16 := ofWord16 ((str.drop 14).take 2)

def dataSizeOf (str : Bytes) : UInt16 := ofWord16 ((str.drop 16).take 2)

/-- The fragment that a datagram holds, if its data and the tail behind them are in it. -/
def boxOf (str : Bytes) (h : 22 + (dataSizeOf str).toNat ≤ str.length) : NetBox where
  idx := idxOf str
  cnt := cntOf str
  head := ofWord32 (str.take 4)
  tail := ofWord32 ((str.drop (18 + (dataSizeOf str).toNat)).take 4)
  bId := bIdOf str
  data := (str.drop 18).take (dataSizeOf str).toNat
  dataSize := dataSizeOf str
  sized := by
    rw [List.length_take, List.length_drop]
    omega

/-- `ProcessNetBox` copies what is in the datagram, or bytes that are behind it. -/
theorem processNetBox_eq_ok {str : Bytes} {pnbx : NetBox} : processNetBox {} str = .ok pnbx ↔
    ∃ h, boxOf str h = pnbx := by
  constructor
  · intro h
    unfold processNetBox at h
    obtain ⟨r, hhead, h⟩ := bind_ok h
    obtain ⟨-, rfl⟩ := readWord32_eq_ok.mp hhead
    obtain ⟨r, hid, h⟩ := bind_ok h
    obtain ⟨-, rfl⟩ := readWord64_eq_ok.mp hid
    obtain ⟨r, hidx, h⟩ := bind_ok h
    obtain ⟨-, rfl⟩ := readWord16_eq_ok.mp hidx
    obtain ⟨r, hcnt, h⟩ := bind_ok h
    obtain ⟨-, rfl⟩ := readWord16_eq_ok.mp hcnt
    obtain ⟨r, hread, h⟩ := bind_ok h
    obtain ⟨-, rfl⟩ := readWord16_eq_ok.mp hread
    obtain ⟨tnb, hset, h⟩ := bind_ok h
    obtain ⟨r, htail, h⟩ := bind_ok h
    obtain ⟨hlen, rfl⟩ := readWord32_eq_ok.mp htail
    have hsize : ofWord16 ((str.drop 16).take 2) = dataSizeOf str := rfl
    simp only [List.drop_drop, Nat.reduceAdd, hsize] at hset hlen h
    have hin : (dataSizeOf str).toNat ≤ (str.drop 18).length := by
      by_contra hnot
      rw [NetBox.set, dif_neg hnot] at hset
      cases hset
    rw [NetBox.set, dif_pos hin] at hset
    obtain rfl := Except.ok.inj hset
    rw [List.length_drop] at hlen
    exact ⟨by omega, Except.ok.inj h⟩
  · rintro ⟨h, rfl⟩
    have hhead : readWord32 str = .ok (ofWord32 (str.take 4), str.drop 4) :=
      readWord32_eq_ok.mpr ⟨by omega, rfl⟩
    have hid : readWord64 (str.drop 4) = .ok (bIdOf str, str.drop 12) := readWord64_drop (by omega)
    have hidx : readWord16 (str.drop 12) = .ok (idxOf str, str.drop 14) :=
      readWord16_drop (by omega)
    have hcnt : readWord16 (str.drop 14) = .ok (cntOf str, str.drop 16) :=
      readWord16_drop (by omega)
    have hsize : readWord16 (str.drop 16) = .ok (dataSizeOf str, str.drop 18) :=
      readWord16_drop (by omega)
    have hset : NetBox.set {} (str.drop 18) (dataSizeOf str) = .ok
        { data := (str.drop 18).take (dataSizeOf str).toNat, dataSize := dataSizeOf str,
          sized := (boxOf str h).sized } := by
      rw [NetBox.set, dif_pos (by rw [List.length_drop]; omega)]
    have htail : readWord32 ((str.drop 18).drop (dataSizeOf str).toNat) =
        .ok ((boxOf str h).tail, str.drop (18 + (dataSizeOf str).toNat + 4)) := by
      rw [List.drop_drop]
      exact readWord32_drop (by omega)
    simp only [processNetBox, hhead, hid, hidx, hcnt, hsize, hset, htail, bind, Except.bind]
    rfl

/-- The array of a listener has its `cnt` places. -/
def Sized (l : BoxListener) : Prop := l.boxs.length = l.cnt

theorem sized_listener {pnbx : NetBox} {taddr : SockAddr} {l : BoxListener}
    (h : BoxListener.new pnbx taddr = .ok l) : Sized l := by
  unfold BoxListener.new at h
  dsimp only at h
  split at h
  · obtain rfl := Except.ok.inj h
    simp [Sized]
  · cases h

theorem Sized.put {l l' : BoxListener} {pnbx : NetBox} (hl : Sized l) (h : l.put pnbx = .ok l') :
    Sized l' := by
  unfold BoxListener.put at h
  split at h
  · cases h
  · obtain rfl := Except.ok.inj h
    exact hl
  · split at h
    · obtain rfl := Except.ok.inj h
      rw [Sized, List.length_set]
      exact hl
    · obtain rfl := Except.ok.inj h
      exact hl

/-- A listener without its array does not stay: the pass that freed it removes it. -/
theorem Sized.process {l l' : BoxListener} {pnrdt : Option RawData} (hl : Sized l ∨ l.clicks = -1)
    (h : l.process = .ok (l', pnrdt)) : Sized l' ∨ l'.clicks = -1 := by
  unfold BoxListener.process at h
  split at h
  · obtain ⟨rfl, -⟩ := Prod.mk.inj (Except.ok.inj h)
    exact hl
  · rename_i hclicks
    have hsized : Sized l := hl.resolve_right (by omega)
    split at h
    · obtain ⟨rdt, -, h⟩ := bind_ok h
      obtain ⟨rfl, -⟩ := Prod.mk.inj (Except.ok.inj h)
      exact Or.inr rfl
    · split at h
      · obtain ⟨rfl, -⟩ := Prod.mk.inj (Except.ok.inj h)
        exact Or.inl hsized
      · obtain ⟨rfl, -⟩ := Prod.mk.inj (Except.ok.inj h)
        exact Or.inr rfl

theorem put_ok {l : BoxListener} (pnbx : NetBox) (hl : Sized l) :
    (∃ l', l.put pnbx = .ok l') ↔ pnbx.idx.toNat < l.cnt := by
  rw [← show l.boxs.length = l.cnt from hl]
  unfold BoxListener.put
  split
  · rename_i hnone
    constructor
    · rintro ⟨l', h⟩
      cases h
    · intro h
      rw [List.getElem?_eq_getElem h] at hnone
      cases hnone
  · rename_i hsome
    exact ⟨fun _ => (List.getElem?_eq_some_iff.mp hsome).1, fun _ => ⟨_, rfl⟩⟩
  · rename_i hsome
    refine ⟨fun _ => (List.getElem?_eq_some_iff.mp hsome).1, fun _ => ?_⟩
    split
    · exact ⟨_, rfl⟩
    · exact ⟨_, rfl⟩

theorem new_ok (pnbx : NetBox) (taddr : SockAddr) :
    (∃ l, BoxListener.new pnbx taddr = .ok l) ↔ pnbx.idx.toNat < pnbx.cnt.toNat := by
  unfold BoxListener.new
  dsimp only
  rw [List.length_replicate]
  split
  · rename_i h
    exact ⟨fun _ => h, fun _ => ⟨_, rfl⟩⟩
  · rename_i h
    constructor
    · rintro ⟨l, hl⟩
      cases hl
    · intro hlt
      exact absurd hlt h

/-- Every listener of a server has its array. -/
def AllSized (s : Server) : Prop := ∀ (b : UInt64) l, s.boxls[b]? = some l → Sized l

/-- As `AllSized`, in the middle of a pass. -/
def SizedOrFreed (s : Server) : Prop :=
  ∀ (b : UInt64) l, s.boxls[b]? = some l → Sized l ∨ l.clicks = -1

theorem AllSized.start : AllSized {} := by
  intro b l h
  have hnone : (({} : Server).boxls)[b]? = none := Std.TreeMap.getElem?_emptyc
  rw [hnone] at h
  cases h

theorem AllSized.serverDeamon {s t : Server} {str : Bytes} {taddr : SockAddr} {rand64 : UInt64}
    (hs : AllSized s) (h : s.serverDeamon str taddr rand64 = .ok t) : AllSized t := by
  cases serverDeamon_effect h with
  | ignored => exact hs
  | raw rdt => exact hs
  | box hl hput =>
    intro b k hk
    rw [Std.TreeMap.getElem?_insert] at hk
    split at hk
    · obtain rfl := Option.some.inj hk
      exact (hs _ _ hl).put hput
    · exact hs b k hk
  | listener hnone hnew =>
    intro b k hk
    rw [Std.TreeMap.getElem?_insertIfNew] at hk
    split at hk
    · obtain rfl := Option.some.inj hk
      exact sized_listener hnew
    · exact hs b k hk

theorem SizedOrFreed.processBoxl {s t : Server} {bId : UInt64} (hs : SizedOrFreed s)
    (h : s.processBoxl bId = .ok t) : SizedOrFreed t := by
  obtain rfl | ⟨l, l', prdt, hl, hproc, rfl⟩ := processBoxl_effect h
  · exact hs
  · intro b k hk
    rw [Std.TreeMap.getElem?_insert] at hk
    split at hk
    · obtain rfl := Option.some.inj hk
      exact Sized.process (hs bId l hl) hproc
    · exact hs b k hk

theorem SizedOrFreed.cleaningBoxs {s : Server} (hs : SizedOrFreed s) : AllSized s.cleaningBoxs := by
  intro b l h
  have hget : s.cleaningBoxs.boxls[b]? =
      s.boxls[b]?.filter (fun l => decide (l.clicks ≠ -1)) := Std.TreeMap.getElem?_filter'
  rw [hget] at h
  obtain ⟨hl, hkept⟩ := Option.mem_filter_iff.mp h
  exact (hs b l hl).resolve_right (of_decide_eq_true hkept)

theorem AllSized.step (s : Server) (e : ServerEvent) (t : Server) (hs : AllSized s)
    (h : s.step e = .ok t) : AllSized t := by
  have hweak : SizedOrFreed s := fun b l hl => Or.inl (hs b l hl)
  cases e with
  | datagram str taddr rand64 => exact hs.serverDeamon h
  | boxProcessorDeamon =>
    obtain ⟨u, hrun, h⟩ := bind_ok h
    obtain rfl := Except.ok.inj h
    exact (run_invariant (fun _ _ _ hu hstep => SizedOrFreed.processBoxl hu hstep) hweak
      hrun).cleaningBoxs
  | boxsCleaningProcessorDeamon =>
    obtain rfl := Except.ok.inj h
    exact hweak.cleaningBoxs

/-- A fragment is read from inside of its datagram and finds its place in the array of its
listener, old or new, which has `cnt` places. -/
def Within (s : Server) : ServerEvent → Prop
  | .datagram str taddr rand64 => checkNetBox str str.length = .ok true →
    ∃ t, s.serverDeamon str taddr rand64 = .ok t ∧ AllSized t
  | _ => True

/-- The `cnt` of the listener that a datagram is for, or that it makes. -/
def cntFor (s : Server) (str : Bytes) : Nat :=
  s.boxls[bIdOf str]?.elim (cntOf str).toNat BoxListener.cnt

/-- The words that came with a fragment are true of it. -/
def InBounds (s : Server) : ServerEvent → Prop
  | .datagram str _ _ => checkNetBox str str.length = .ok true →
    22 + (dataSizeOf str).toNat ≤ str.length ∧ (idxOf str).toNat < cntFor s str
  | _ => True

theorem serverDeamon_fragment {s : Server} {str : Bytes} (taddr : SockAddr) (rand64 : UInt64)
    (hs : AllSized s) (hcheck : checkNetBox str str.length = .ok true) :
    (∃ t, s.serverDeamon str taddr rand64 = .ok t) ↔
      22 + (dataSizeOf str).toNat ≤ str.length ∧ (idxOf str).toNat < cntFor s str := by
  have hne : str.length ≠ 0 := by
    intro h
    rw [List.length_eq_zero_iff.mp h] at hcheck
    cases hcheck
  rw [Server.serverDeamon, if_neg hne, hcheck]
  simp only [bind, Except.bind, if_true]
  constructor
  · rintro ⟨t, h⟩
    obtain ⟨pnbx, hread, h⟩ := bind_ok h
    obtain ⟨hin, rfl⟩ := processNetBox_eq_ok.mp hread
    refine ⟨hin, ?_⟩
    unfold cntFor
    split at h
    · rename_i l hl
      obtain ⟨l', hput, -⟩ := bind_ok h
      rw [show s.boxls[bIdOf str]? = some l from hl]
      exact (put_ok _ (hs _ l hl)).mp ⟨l', hput⟩
    · rename_i hnone
      obtain ⟨l', hnew, -⟩ := bind_ok h
      rw [show s.boxls[bIdOf str]? = none from hnone]
      exact (new_ok _ taddr).mp ⟨l', hnew⟩
  · rintro ⟨hin, hidx⟩
    rw [processNetBox_eq_ok.mpr ⟨hin, rfl⟩]
    unfold cntFor at hidx
    simp only
    split
    · rename_i l hl
      rw [show s.boxls[bIdOf str]? = some l from hl] at hidx
      obtain ⟨l', hput⟩ := (put_ok (boxOf str hin) (hs _ l hl)).mpr hidx
      rw [hput]
      exact ⟨_, rfl⟩
    · rename_i hnone
      rw [show s.boxls[bIdOf str]? = none from hnone] at hidx
      obtain ⟨l', hnew⟩ := (new_ok (boxOf str hin) taddr).mpr hidx
      rw [hnew]
      exact ⟨_, rfl⟩

theorem within_event {s : Server} (hs : AllSized s) (e : ServerEvent) :
    Within s e ↔ InBounds s e := by
  cases e with
  | datagram str taddr rand64 =>
    refine forall_congr' fun hcheck => ?_
    rw [← serverDeamon_fragment taddr rand64 hs hcheck]
    constructor
    · rintro ⟨t, ht, -⟩
      exact ⟨t, ht⟩
    · rintro ⟨t, ht⟩
      exact ⟨t, ht, hs.serverDeamon ht⟩
  | boxProcessorDeamon => exact Iff.rfl
  | boxsCleaningProcessorDeamon => exact Iff.rfl

/-- In a run, no datagram leads outside of itself or of an array just if all of them are in
bounds. -/
theorem within_iff (events : List ServerEvent) :
    Along Server.step Within {} events ↔ Along Server.step InBounds {} events :=
  along_congr AllSized.step (fun _ e hs => within_event hs e) AllSized.start

/-- A fragment that says it is the second of one. -/
def strayBox : NetBox := { idx := 1, cnt := 1 }

/-- A fragment with no data that says it has the most it can say. -/
def overrun : Bytes := netb ++ word64 0 ++ word16 0 ++ word16 1 ++ word16 65535 ++ bten

theorem not_within_of_fault {str : Bytes} (hcheck : checkNetBox str str.length = .ok true)
    (h : (({} : Server).serverDeamon str localhost 0).isOk = false) :
    ¬Along Server.step Within {} [.datagram str localhost 0] := by
  rintro ⟨hwithin, -⟩
  obtain ⟨t, ht, -⟩ := hwithin hcheck
  rw [ht] at h
  cases h

/-- `CheckNetBox` accepts both, and both lead outside. -/
theorem not_within_stray :
    (checkNetBox strayBox.build.datagram strayBox.build.datagram.length = .ok true ∧
      ¬Along Server.step Within {} [.datagram strayBox.build.datagram localhost 0]) ∧
    checkNetBox overrun overrun.length = .ok true ∧
      ¬Along Server.step Within {} [.datagram overrun localhost 0] := by
  have hstray : checkNetBox strayBox.build.datagram strayBox.build.datagram.length = .ok true := by
    decide +kernel
  have hoverrun : checkNetBox overrun overrun.length = .ok true := by decide +kernel
  refine ⟨⟨hstray, not_within_of_fault hstray ?_⟩, hoverrun, not_within_of_fault hoverrun ?_⟩
  · decide +kernel
  · decide +kernel

end NetCpp.Proofs
