import NetCpp.ComputeResult
import NetCpp.Library.Runs

namespace NetCpp.Proofs
open Library CNodeServer

/-- Each argument is an `int` or a `double`, as its format says. -/
def Matching (args : List Bytes) (fargs : Option (List Int32)) : Prop :=
  ∃ formats, fargs = some formats ∧
    List.Forall₂ (fun arg farg => farg = formatInt ∧ arg.length = 4 ∨ farg = formatDouble ∧
      arg.length = 8)
      args formats

def argBlock (arg : Bytes) : PointedBlock where
  first := .ofNat arg.length
  second := some arg

theorem writeArg_matching {farg : Int32} {arg : Bytes}
    (h : farg = formatInt ∧ arg.length = 4 ∨ farg = formatDouble ∧ arg.length = 8) :
    writeArg farg arg = .ok [argBlock arg] := by
  rcases h with ⟨rfl, hlen⟩ | ⟨rfl, hlen⟩
  · rw [writeArg, if_pos rfl, readBytes_all hlen, argBlock, hlen]
    rfl
  · rw [writeArg, if_neg (by decide), if_pos rfl, readBytes_all hlen, argBlock, hlen]
    rfl

theorem writeArgs_matching {args : List Bytes} {fargs : List Int32}
    (h : List.Forall₂ (fun arg farg => farg = formatInt ∧ arg.length = 4 ∨ farg = formatDouble ∧
      arg.length = 8) args fargs) : writeArgs args fargs = .ok (args.map argBlock) := by
  induction h with
  | nil => rfl
  | cons harg hargs ih =>
    rw [writeArgs, writeArg_matching harg, ih]
    rfl

def nameBlock (name : Bytes) : PointedBlock where
  first := .ofNat name.length
  second := some (name ++ [0])

/-- What the packet of a result is made of. -/
def laidOut (tcpur : ComputeResult) : PointedPacket where
  type := 0
  buffs := nameBlock tcpur.name :: countBlock tcpur.argsIn ::
    (tcpur.argsIn.map argBlock ++ countBlock tcpur.argsOut :: tcpur.argsOut.map argBlock)

section
variable {tcpur : ComputeResult} (hin : Matching tcpur.argsIn tcpur.fargsIn)
  (hout : Matching tcpur.argsOut tcpur.fargsOut)
include hin hout

theorem packetOf_matching : packetOf tcpur = .ok (laidOut tcpur) := by
  obtain ⟨fargsIn, hfargsIn, hargsIn⟩ := hin
  obtain ⟨fargsOut, hfargsOut, hargsOut⟩ := hout
  simp only [packetOf, hfargsIn, hfargsOut, formats, bind, Except.bind, writeArgs_matching hargsIn,
    writeArgs_matching hargsOut]
  rfl

end

/-- There is nothing to assign to: the loop returns only if it has no round. -/
theorem readArgs_empty {tpkt : PointedPacket} {stop i : Int} {args : List Bytes}
    (h : readArgs tpkt stop [] i = .ok args) : ¬i < stop ∧ args = [] := by
  rw [readArgs] at h
  split at h
  · obtain ⟨block, -, h⟩ := bind_ok h
    obtain ⟨arg, -, h⟩ := bind_ok h
    obtain ⟨args, hassign, -⟩ := bind_ok h
    rw [assign, if_pos (by simp; omega)] at hassign
    cases hassign
  · rename_i hstop
    exact ⟨hstop, (Except.ok.inj h).symm⟩

/-- What must be so for `Packet2CPUR` to return. -/
structure Read (tpkt : PointedPacket) (nargsIn nargsOut : Int32) : Prop where
  name : ∃ block, buff tpkt 0 = .ok block ∧ readInt block = .ok nargsIn
  count : ∃ block, buff tpkt (nargsIn + 1).toInt = .ok block ∧ readInt block = .ok nargsOut
  noneIn : ¬0 < nargsIn.toInt
  noneOut : ¬(nargsIn + 1).toInt < (nargsIn + nargsOut + 2).toInt

theorem packet2Cpur_read {tpkt : PointedPacket} {tcpur : ComputeResult} (htype : tpkt.type = 0)
    (h : packet2Cpur tpkt = .ok tcpur) :
    (∃ nargsIn nargsOut, Read tpkt nargsIn nargsOut) ∧ tcpur.argsIn = [] ∧ tcpur.argsOut = [] := by
  rw [packet2Cpur, if_pos htype] at h
  obtain ⟨name, hname, h⟩ := bind_ok h
  obtain ⟨nargsIn, hnargsIn, h⟩ := bind_ok h
  obtain ⟨count, hcount, h⟩ := bind_ok h
  obtain ⟨nargsOut, hnargsOut, h⟩ := bind_ok h
  obtain ⟨argsIn, hargsIn, h⟩ := bind_ok h
  obtain ⟨argsOut, hargsOut, h⟩ := bind_ok h
  obtain ⟨hnoneIn, rfl⟩ := readArgs_empty hargsIn
  obtain ⟨hnoneOut, rfl⟩ := readArgs_empty hargsOut
  cases h
  exact ⟨⟨nargsIn, nargsOut, ⟨name, hname, hnargsIn⟩, ⟨count, hcount, hnargsOut⟩, hnoneIn,
    hnoneOut⟩, rfl, rfl⟩

/-- The number of inputs is 0, or so that the two numbers are read from one place. -/
theorem Read.few {tpkt : PointedPacket} {nargsIn nargsOut : Int32}
    (h : Read tpkt nargsIn nargsOut) : nargsIn = 0 ∨ nargsIn = -1 := by
  obtain ⟨block, hbuff, -⟩ := h.count
  have hnone := h.noneIn
  have hnonneg : 0 ≤ (nargsIn + 1).toInt := by
    by_contra hneg
    rw [buff, if_pos (by omega)] at hbuff
    cases hbuff
  have hlow := nargsIn.le_toInt
  have hone : (1 : Int32).toInt = 1 := rfl
  have hnext : (nargsIn + 1).toInt = nargsIn.toInt + 1 := by
    rw [Int32.toInt_add, hone]
    exact Int.bmod_eq_of_le (by omega) (by omega)
  have hcases : nargsIn.toInt = 0 ∨ nargsIn.toInt = -1 := by omega
  exact hcases.imp (fun hzero => Int32.toInt_inj.mp hzero) (fun hminus => Int32.toInt_inj.mp hminus)

/-- The memory of a name, read as a number. -/
theorem readInt_name (name : Bytes) :
    readInt (nameBlock name) = .ok (-1) ↔ name.take 4 = [255, 255, 255, 255] := by
  have hword : word32 4294967295 = [255, 255, 255, 255] := by decide
  constructor
  · intro h
    obtain ⟨s, hs, hvalue⟩ := bind_ok h
    obtain ⟨read, hread, hrest⟩ := bind_ok hs
    cases hrest
    rw [readBytes] at hread
    split at hread
    · cases hread
    · rename_i hlen
      obtain rfl := Except.ok.inj hread
      rw [List.length_append, List.length_singleton] at hlen
      have hfour : ((name ++ [0]).take 4).length = 4 := by simp; omega
      have hnum : ofWord32 ((name ++ [0]).take 4) = 4294967295 := by
        rw [← UInt32.toUInt32_toInt32 (ofWord32 _), Except.ok.inj hvalue]
        rfl
      have hbytes : (name ++ [0]).take 4 = [255, 255, 255, 255] := by
        rw [← word32_ofWord32 hfour, hnum, hword]
      by_cases hshort : name.length = 3
      · have hall : name ++ [0] = [255, 255, 255, 255] := by
          rw [← hbytes, List.take_of_length_le (by simp; omega)]
        have hlast := congrArg List.getLast? hall
        simp at hlast
      · rwa [List.take_append_of_le_length (by omega)] at hbytes
  · intro h
    have hlen : 4 ≤ name.length := by
      have := congrArg List.length h
      simp at this
      omega
    have hread : readBytes 4 (name ++ [0]) = .ok ([255, 255, 255, 255], name.drop 4 ++ [0]) := by
      rw [readBytes, if_neg (by simp; omega), List.take_append_of_le_length hlen,
        List.drop_append_of_le_length hlen, h]
    have hvalue : (ofWord32 [255, 255, 255, 255]).toInt32 = -1 := by decide
    simp only [readInt, readBlock, nameBlock, hread]
    exact congrArg Except.ok hvalue

/-- `Packet2CPUR` returns, and with the same arguments. -/
def Returned (tcpur : ComputeResult) (rawpkt : Except Fault PointedPacket) : Prop :=
  ∃ tpkt result, rawpkt = .ok tpkt ∧ packet2Cpur tpkt = .ok result ∧
    result.argsIn = tcpur.argsIn ∧ result.argsOut = tcpur.argsOut

/-- When the call has ended the first block points to nothing. -/
theorem cpurs2Packet_dangles {tcpur : ComputeResult} {tpkt : PointedPacket}
    (h : cpurs2Packet tcpur = .ok tpkt) : packet2Cpur tpkt = .error .readOutside := by
  obtain ⟨rawpkt, hpacket, hname⟩ := bind_ok h
  obtain ⟨fargsIn, -, hpacket⟩ := bind_ok hpacket
  obtain ⟨argsIn, -, hpacket⟩ := bind_ok hpacket
  obtain ⟨fargsOut, -, hpacket⟩ := bind_ok hpacket
  obtain ⟨argsOut, -, hpacket⟩ := bind_ok hpacket
  cases hpacket
  cases hname
  rfl

section
variable {tcpur : ComputeResult} (hin : Matching tcpur.argsIn tcpur.fargsIn)
  (hout : Matching tcpur.argsOut tcpur.fargsOut)
include hin hout

/-- No result comes back. It would not if the name outlived the call either, but for a result
without arguments whose name is so that both numbers are -1. -/
theorem packet2Cpur_never :
    ¬Returned tcpur (cpurs2Packet tcpur) ∧
    (Returned tcpur (packetOf tcpur) ↔
      tcpur.name.take 4 = [255, 255, 255, 255] ∧ tcpur.argsIn = [] ∧ tcpur.argsOut = []) := by
  refine ⟨?_, ?_, ?_⟩
  · rintro ⟨tpkt, result, hpacket, hresult, -⟩
    rw [cpurs2Packet_dangles hpacket] at hresult
    cases hresult
  · rintro ⟨tpkt, result, hpacket, hresult, hargsIn, hargsOut⟩
    obtain rfl := Except.ok.inj ((packetOf_matching hin hout).symm.trans hpacket)
    obtain ⟨⟨nargsIn, nargsOut, hread⟩, hnoneIn, hnoneOut⟩ := packet2Cpur_read rfl hresult
    rw [hnoneIn] at hargsIn
    rw [hnoneOut] at hargsOut
    refine ⟨?_, hargsIn.symm, hargsOut.symm⟩
    rcases hread.few with rfl | rfl
    · -- the number of inputs is taken for that of the outputs
      obtain ⟨count, hcount, hnargsOut⟩ := hread.count
      have hzero : countBlock tcpur.argsIn = countBlock [] := by rw [← hargsIn]
      obtain rfl := Except.ok.inj hcount
      rw [hzero] at hnargsOut
      obtain rfl := Except.ok.inj hnargsOut
      exact absurd (by decide) hread.noneOut
    · obtain ⟨name, hname, hnargsIn⟩ := hread.name
      obtain rfl := Except.ok.inj hname
      exact (readInt_name tcpur.name).mp hnargsIn
  · rintro ⟨hname, hargsIn, hargsOut⟩
    have hminus := (readInt_name tcpur.name).mpr hname
    refine ⟨laidOut tcpur, { argsIn := [], argsOut := [] }, packetOf_matching hin hout, ?_,
      hargsIn.symm, hargsOut.symm⟩
    have hfirst : buff (laidOut tcpur) 0 = .ok (nameBlock tcpur.name) := rfl
    have hnext : ((-1 : Int32) + 1).toInt = 0 := rfl
    have hloopIn : readArgs (laidOut tcpur) (-1 : Int32).toInt [] 0 = .ok [] := by
      rw [readArgs, if_neg (by decide)]
    have hloopOut : readArgs (laidOut tcpur) ((-1 : Int32) + -1 + 2).toInt [] 0 = .ok [] := by
      rw [readArgs, if_neg (by decide)]
    have htype : (laidOut tcpur).type = 0 := rfl
    rw [packet2Cpur, if_pos htype, hfirst]
    simp only [bind, Except.bind, hminus, hnext, hfirst, hloopIn, hloopOut]
    rfl

end

def sumResult : ComputeResult where
  name := ascii ['s', 'u', 'm', '3']
  argsIn := [word32 1, word32 2, word64 0]
  argsOut := [word64 0]
  fargsIn := some [formatInt, formatInt, formatDouble]
  fargsOut := some [formatDouble]

theorem sumResult_in : Matching sumResult.argsIn sumResult.fargsIn :=
  ⟨_, rfl, .cons (.inl ⟨rfl, rfl⟩) (.cons (.inl ⟨rfl, rfl⟩) (.cons (.inr ⟨rfl, rfl⟩) .nil))⟩

theorem sumResult_out : Matching sumResult.argsOut sumResult.fargsOut :=
  ⟨_, rfl, .cons (.inr ⟨rfl, rfl⟩) .nil⟩

theorem packet2Cpur_outside :
    (Matching sumResult.argsIn sumResult.fargsIn ∧ Matching sumResult.argsOut sumResult.fargsOut) ∧
    ((cpurs2Packet sumResult).bind packet2Cpur = .error .readOutside ∧
      (packetOf sumResult).bind packet2Cpur = .error .readOutside) :=
  ⟨⟨sumResult_in, sumResult_out⟩, by decide +kernel⟩

theorem packet2Cpur_sample : ¬Returned sumResult (cpurs2Packet sumResult) :=
  (packet2Cpur_never sumResult_in sumResult_out).1

end NetCpp.Proofs
