import NetCpp.Proofs.Chunking
import NetCpp.Proofs.Framed

namespace NetCpp.Proofs
open Library Message MessageFactory MessageParser

/-- What `getValue` throws, which no handler of its callers takes. -/
def keyNotFound : Fault := .runtimeErrorPointer "key not found"

theorem getValue_missing {m : Message} {key : Bytes} (h : key ∉ m.keys) :
    m.getValue key = .error keyNotFound := by
  have hnone : m.options.find? (fun o => o.key = key) = none := by
    apply List.find?_eq_none.mpr
    intro o ho heq
    apply h
    rw [← of_decide_eq_true heq]
    exact List.mem_map_of_mem ho
  rw [getValue, hnone]
  rfl

theorem checkMessageSign_missing (signGen : SHA256Generator) {m : Message} (h : keySign ∉ m.keys) :
    checkMessageSign signGen m = .error keyNotFound := by
  rw [checkMessageSign, getValue_missing h]
  rfl

theorem decodeBody_missing {m : Message} (raw : Bytes) (offset : Nat) (h : keySize ∉ m.keys) :
    decodeBody raw offset m = .error keyNotFound := by
  rw [decodeBody, getValue_missing h]
  rfl

/-- The head and the options of the frame are accepted, and there is no size among them. -/
def LacksSize (raw : Bytes) (m₀ : Message) : Prop :=
  ∃ i m₁ j m₂, decodeHead raw m₀.clear = .ok (some i, m₁) ∧
    decodeOptions raw i m₁ = .ok (some j, m₂) ∧
    keySize ∉ m₂.keys

theorem decodeMessage_missing {raw : Bytes} {m₀ : Message} (h : LacksSize raw m₀) :
    decodeMessage raw m₀ = .error keyNotFound := by
  obtain ⟨i, m₁, j, m₂, hhead, hoptions, hsize⟩ := h
  simp only [decodeMessage, hhead, hoptions, decodeBody_missing raw j hsize, bind, Except.bind]

/-- The parser has taken a head and an option part, with no size among the options, and waits for
the first byte of the body. -/
structure AwaitsBody (p : MessageParser) (m : Message) : Prop where
  part : p.part = some .body
  body : p.bodyState = -1
  message : p.tempMsg = some m
  missing : keySize ∉ m.keys

theorem locateBody_missing {p : MessageParser} {m : Message} (h : AwaitsBody p m) (c : Byte) :
    locateBody (p.push c) c = .error keyNotFound := by
  have hbody : (p.push c).bodyState = -1 := h.body
  have hmessage : (p.push c).message = .ok m := by
    rw [MessageParser.message, push_tempMsg, h.message]
  simp only [locateBody, locateSize, hbody, hmessage, getValue_missing h.missing, bind,
    Except.bind, ne_eq, not_true, if_false]
  rfl

theorem consume_missing {p : MessageParser} {m : Message} (clock : Nat → Clock)
    (h : AwaitsBody p m) (c : Byte) (rest : Bytes) :
    consume clock p (c :: rest) = .error keyNotFound := by
  have hcreate : create clock p = p := by
    apply create_self
    rw [h.message]
    exact Option.some_ne_none m
  have hflat : (loops clock).flat (p, none) (some c) = .error keyNotFound := by
    have hphase : (loops clock).phase ((loops clock).prepare p) = some .body := by
      rw [show (loops clock).prepare p = p from hcreate]
      exact h.part
    simp only [Loops.flat, hphase, Loops.enter]
    rw [show (loops clock).prepare p = p from hcreate,
      show (loops clock).body .body p c = .error keyNotFound from locateBody_missing h c]
  rw [consume, Loops.exec_flat, List.map_cons, run_cons_error hflat]
  rfl

theorem parse_missing {p : MessageParser} {m : Message} (clock : Nat → Clock)
    (h : AwaitsBody p m) (c : Byte) (rest : Bytes) (hrest : (c :: rest).length < 2 ^ 31) :
    parse clock p (c :: rest) = .error keyNotFound := by
  rw [parse_eq_consume clock p hrest, consume_missing clock h c rest]

/-- An option is missing that one of the three callers asks for. -/
inductive MissingOption where
  | sign (signGen : SHA256Generator) (m : Message) (h : keySign ∉ m.keys)
  | frame (raw : Bytes) (m₀ : Message) (h : LacksSize raw m₀)
  | body (clock : Nat → Clock) (p : MessageParser) (m : Message) (c : Byte) (rest : Bytes)
    (h : AwaitsBody p m)

/-- What the handlers of the callers do. -/
def MissingOption.Handled : MissingOption → Prop
  | .sign signGen m _ => checkMessageSign signGen m = .ok false
  | .frame raw m₀ _ => ∃ r, decodeMessage raw m₀ = .ok (false, r)
  | .body _ p _ c _ _ => locateBody (p.push c) c = .ok ((p.push c).resetState, true)

/-- The exception leaves the caller. From the loop over the queue it does so whatever bytes are
behind, and then from `parse`, if that could count them. -/
def MissingOption.Escapes : MissingOption → Prop
  | .sign signGen m _ => checkMessageSign signGen m = .error keyNotFound
  | .frame raw m₀ _ => decodeMessage raw m₀ = .error keyNotFound
  | .body clock p _ c rest _ => locateBody (p.push c) c = .error keyNotFound ∧
    consume clock p (c :: rest) = .error keyNotFound ∧
    ((c :: rest).length < 2 ^ 31 → parse clock p (c :: rest) = .error keyNotFound)

theorem MissingOption.escapes (x : MissingOption) : x.Escapes := by
  cases x with
  | sign signGen m h => exact checkMessageSign_missing signGen h
  | frame raw m₀ h => exact decodeMessage_missing h
  | body clock p m c rest h => exact ⟨locateBody_missing h c, consume_missing clock h c rest,
    parse_missing clock h c rest⟩

/-- No handler takes the exception, whatever option is missing and wherever. -/
theorem not_handled (x : MissingOption) : ¬x.Handled ∧ x.Escapes := by
  have hescapes := x.escapes
  refine ⟨?_, hescapes⟩
  intro hhandled
  cases x with
  | sign signGen m h => cases hhandled.symm.trans hescapes
  | frame raw m₀ h =>
    obtain ⟨r, hr⟩ := hhandled
    cases hr.symm.trans hescapes
  | body clock p m c rest h => cases hhandled.symm.trans hescapes.1

/-- A message without data, which is sent without a size. -/
def unsizedMessage : Message where
  tid := 7
  type := 1
  options := [⟨keyDate, ascii ['0', '7']⟩]

/-- The option part alone, with the checksum that the parser compares with. -/
def unsizedOptions : Bytes :=
  optionText unsizedMessage.options ++ ascii ['7', '3', '4'] ++ crlf ++ crlf

/-- A message that was not signed, the frame of a message without data, and its head and options
followed by one byte of a body. -/
theorem not_handled_unsized :
    ¬(MissingOption.sign helloGenerator unsizedMessage (by decide)).Handled ∧
    (∃ sent e, encodeMessage helloGenerator unsizedMessage [] = .ok (sent, e) ∧
      decodeMessage e {} = .error keyNotFound) ∧
    (∃ p, parseAll sampleClock {} [headText unsizedMessage, unsizedOptions] = .ok p ∧
      p.part = some .body ∧ parse sampleClock p [cr] = .error keyNotFound) := by
  refine ⟨?_, ?_, ?_⟩
  · intro h
    have hhandled : checkMessageSign helloGenerator unsizedMessage = .ok false := h
    revert hhandled
    decide
  · have hok : (encodeMessage helloGenerator unsizedMessage []).isOk = true := by decide +kernel
    obtain ⟨⟨sent, e⟩, he⟩ := exists_of_isOk hok
    have hdecode : ((encodeMessage helloGenerator unsizedMessage []).bind
        fun r => decodeMessage r.2 {}) = .error keyNotFound := by decide +kernel
    rw [he] at hdecode
    exact ⟨sent, e, he, hdecode⟩
  · have hok : (parseAll sampleClock {} [headText unsizedMessage, unsizedOptions]).isOk = true := by
      decide +kernel
    obtain ⟨p, hp⟩ := exists_of_isOk hok
    have hpart : (parseAll sampleClock {} [headText unsizedMessage, unsizedOptions]).map
        MessageParser.part = .ok (some .body) := by decide +kernel
    have hnext : ((parseAll sampleClock {} [headText unsizedMessage, unsizedOptions]).bind
        fun p => parse sampleClock p [cr]) = .error keyNotFound := by decide +kernel
    rw [hp] at hpart hnext
    exact ⟨p, hp, Except.ok.inj hpart, hnext⟩

end NetCpp.Proofs
