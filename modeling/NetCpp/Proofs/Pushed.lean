import NetCpp.Proofs.Accepted
import NetCpp.Proofs.Chunking

namespace NetCpp

/-- A call that changes a message. -/
inductive MessageCall where
  | setHead (tid : Int32) (type : Int16)
  | addOption (key value : Bytes)
  | pushData (buf : Bytes) (size : Nat)
  | clear
deriving DecidableEq

def Message.call (m : Message) : MessageCall → Except Fault Message
  | .setHead tid type => .ok (m.setHead tid type)
  | .addOption key value => .ok (m.addOption key value)
  | .pushData buf size => m.pushData buf size
  | .clear => .ok m.clear

namespace Proofs
open Library Message MessageFactory

/-- The option lines of a frame, as the decoders read them: head line, lines of two quoted texts,
a line with a checksum, an empty line, the body and the tail. -/
structure OptionsOf (e : Bytes) (os : List MessageOption) (body : Bytes) : Prop where
  lines : ∃ head sum, cr ∉ head ∧ cr ∉ sum ∧ quote ∉ sum ∧ e = head ++ crlf ++
    (optionText os ++ (sum ++ crlf ++ (crlf ++ body ++ (crlf ++ msgTail))))
  unquoted : ∀ o ∈ os, Unquoted o

/-- Just one of the option lines of the frame is for the size, and it has the number of bytes of
the body. `c_str` cuts off what comes behind a NUL. -/
def CarriesSize (e : Bytes) : Prop :=
  ∃ os body, OptionsOf e os body ∧
    (os.map cut).filter (·.key = keySize) = [⟨keySize, Decimal.ofNat body.length⟩]

/-- Where a text is read as a line of two quoted texts, it is one line only. -/
theorem optionLine_inj {o p : MessageOption} (ho : Unquoted o) (hp : Unquoted p) {s t : Bytes}
    (h : optionLine o ++ s = optionLine p ++ t) : o = p ∧ s = t := by
  have hline (o : MessageOption) (s : Bytes) : optionLine o ++ s = quote :: (o.key ++ quote ::
      ([colon, quote] ++ (o.value ++ quote :: (crlf ++ s)))) := by
    simp [optionLine]
  rw [hline, hline] at h
  obtain ⟨hkey, hafter⟩ := append_cons_inj ho.1 hp.1 (List.cons.inj h).2
  obtain ⟨hvalue, hend⟩ := append_cons_inj ho.2 hp.2 (List.append_cancel_left hafter)
  obtain ⟨key, value⟩ := o
  obtain ⟨key', value'⟩ := p
  simp only at hkey hvalue
  rw [hkey, hvalue]
  exact ⟨rfl, List.append_cancel_left hend⟩

theorem optionText_inj {os ps : List MessageOption} (hos : ∀ o ∈ os, Unquoted o)
    (hps : ∀ p ∈ ps, Unquoted p) {s t : Bytes} (hs : s.head? ≠ some quote)
    (ht : t.head? ≠ some quote) (h : optionText os ++ s = optionText ps ++ t) :
    os = ps ∧ s = t := by
  induction os generalizing ps with
  | nil =>
    cases ps with
    | nil => exact ⟨rfl, h⟩
    | cons p ps =>
      simp only [optionText, List.flatMap_nil, List.nil_append] at h
      exact absurd (by rw [h]; rfl) hs
  | cons o os ih =>
    cases ps with
    | nil =>
      simp only [optionText, List.flatMap_nil, List.nil_append] at h
      exact absurd (by rw [← h]; rfl) ht
    | cons p ps =>
      rw [optionText_cons, optionText_cons, List.append_assoc, List.append_assoc] at h
      obtain ⟨rfl, hrest⟩ := optionLine_inj (hos o List.mem_cons_self) (hps p List.mem_cons_self) h
      obtain ⟨rfl, rfl⟩ := ih (fun q hq => hos q (List.mem_cons_of_mem o hq))
        (fun q hq => hps q (List.mem_cons_of_mem o hq)) hrest
      exact ⟨rfl, rfl⟩

theorem head_sum {sum rest : Bytes} (hsum : quote ∉ sum) :
    (sum ++ crlf ++ rest).head? ≠ some quote := by
  cases sum with
  | nil => exact (by decide : some cr ≠ some quote)
  | cons c sum =>
    intro h
    exact hsum (Option.some.inj h ▸ List.mem_cons_self)

/-- A frame is read in one way only. -/
theorem OptionsOf.unique {e : Bytes} {os os' : List MessageOption} {body body' : Bytes}
    (h : OptionsOf e os body) (h' : OptionsOf e os' body') : os = os' ∧ body = body' := by
  obtain ⟨head, sum, hhead, hsum, hquote, rfl⟩ := h.lines
  obtain ⟨head', sum', hhead', hsum', hquote', he⟩ := h'.lines
  have hcrlf (a b : Bytes) : a ++ crlf ++ b = a ++ cr :: (lf :: b) := by simp [crlf]
  rw [hcrlf, hcrlf head'] at he
  obtain ⟨-, he⟩ := append_cons_inj hhead hhead' he
  obtain ⟨hos, he⟩ := optionText_inj h.unquoted h'.unquoted (head_sum hquote) (head_sum hquote')
    (List.cons.inj he).2
  rw [hcrlf, hcrlf sum'] at he
  obtain ⟨-, he⟩ := append_cons_inj hsum hsum' he
  have hbody := List.append_cancel_right (List.cons.inj he).2
  exact ⟨hos, List.append_cancel_left hbody⟩

/-- What is written for options without quotes is read as these options. -/
theorem optionsOf_frameText {sent : Message} (hunquoted : ∀ o ∈ sent.options, Unquoted o)
    (k : Int16) : OptionsOf (frameText sent k) sent.options sent.data := by
  have hcr {n : Int} : cr ∉ Decimal.ofInt n := not_mem_ofInt (by decide) (by decide)
  have hhead : cr ∉ msgHead ++ headRest sent := by
    rw [List.mem_append, not_or]
    exact ⟨by decide, not_mem_headRest (by decide) (by decide) (by decide)⟩
  refine ⟨⟨msgHead ++ headRest sent, Decimal.ofInt k.toInt, hhead, hcr,
    not_mem_ofInt (by decide) (by decide), ?_⟩, hunquoted⟩
  simp [frameText, signedText, headText_eq, sumText]

/-- With distinct keys there is at most one option of a key. -/
theorem filter_key {key : Bytes} {os : List MessageOption} (h : (os.map MessageOption.key).Nodup) :
    os.filter (·.key = key) = (os.find? (·.key = key)).toList := by
  induction os with
  | nil => rfl
  | cons o os ih =>
    obtain ⟨hnot, hos⟩ := List.nodup_cons.mp h
    by_cases hkey : o.key = key
    · have hrest : os.filter (·.key = key) = [] := by
        apply List.filter_eq_nil_iff.mpr
        intro p hp heq
        apply hnot
        rw [hkey, ← of_decide_eq_true heq]
        exact List.mem_map_of_mem hp
      simp [hkey, hrest]
    · simp [hkey, ih hos]

theorem carriesSize_iff {sent : Message} {k : Int16} (hplain : ∀ o ∈ sent.options, Plain o)
    (h : sent.keys.Nodup) : CarriesSize (frameText sent k) ↔
      sent.getValue keySize = .ok (Decimal.ofNat sent.data.length) := by
  have hread := optionsOf_frameText (Plain.unquoted hplain) k
  have hone : CarriesSize (frameText sent k) ↔ sent.options.filter (·.key = keySize) =
      [⟨keySize, Decimal.ofNat sent.data.length⟩] := by
    constructor
    · intro hcarries
      obtain ⟨os, body, hos, honce⟩ := hcarries
      obtain ⟨rfl, rfl⟩ := hos.unique hread
      rwa [map_cut hplain] at honce
    · intro honce
      exact ⟨_, _, hread, by rwa [map_cut hplain]⟩
  rw [hone, filter_key h, getValue]
  cases hfind : sent.options.find? (fun o => o.key = keySize) with
  | none => simp
  | some o =>
    have hkey : o.key = keySize := by simpa using List.find?_some hfind
    obtain ⟨key, value⟩ := o
    simp only at hkey
    rw [hkey]
    simp

/-- How many bytes a message gets from these calls. -/
def pushedBytes (calls : List MessageCall) : Nat :=
  calls.foldl (fun n c =>
    match c with
    | .pushData _ size => n + size
    | .clear => 0
    | .setHead .. | .addOption .. => n) 0

/-- A call that does not touch the size option. -/
def LeavesSize : MessageCall → Prop
  | .setHead .. => True
  | .addOption key _ => key ≠ keySize
  | .pushData .. | .clear => False

/-- A call that gives the size option the number of bytes, after these calls. -/
def SetsSize (calls : List MessageCall) (c : MessageCall) : Prop :=
  (∃ buf size, c = .pushData buf size) ∨ c = .addOption keySize (Decimal.ofNat (pushedBytes calls))

/-- The last call that touches the size option sets it. -/
def SizeKept (calls : List MessageCall) : Prop :=
  ∃ before c after, calls = before ++ c :: after ∧ SetsSize before c ∧ ∀ d ∈ after, LeavesSize d

theorem sizeKept_append {calls : List MessageCall} {c : MessageCall} :
    SizeKept (calls ++ [c]) ↔ SetsSize calls c ∨ LeavesSize c ∧ SizeKept calls := by
  constructor
  · rintro ⟨before, d, after, hsplit, hset, hafter⟩
    rcases List.eq_nil_or_concat after with rfl | ⟨after, c', rfl⟩
    · obtain ⟨rfl, hc⟩ := List.append_inj' hsplit rfl
      cases hc
      exact .inl hset
    · have hsplit' : calls ++ [c] = (before ++ d :: after) ++ [c'] := by simpa using hsplit
      obtain ⟨hcalls, hc⟩ := List.append_inj' hsplit' rfl
      cases hc
      refine .inr ⟨hafter c (by simp), before, d, after, hcalls, hset, ?_⟩
      intro x hx
      exact hafter x (by simp [hx])
  · rintro (hset | ⟨hleaves, before, d, after, rfl, hset, hafter⟩)
    · exact ⟨calls, c, [], rfl, hset, by simp⟩
    · refine ⟨before, d, after ++ [c], by simp, hset, ?_⟩
      intro x hx
      rcases List.mem_append.mp hx with hold | hnew
      · exact hafter x hold
      · rw [List.mem_singleton.mp hnew]
        exact hleaves

/-- What a message is after these calls. -/
structure Pushed (calls : List MessageCall) (m : Message) : Prop where
  nodup : m.keys.Nodup
  length : m.data.length = pushedBytes calls
  size : m.getValue keySize = .ok (Decimal.ofNat m.data.length) ↔ SizeKept calls

theorem pushedBytes_append (calls : List MessageCall) (c : MessageCall) :
    pushedBytes (calls ++ [c]) =
      match c with
      | .pushData _ size => pushedBytes calls + size
      | .clear => 0
      | .setHead .. | .addOption .. => pushedBytes calls := by
  rw [pushedBytes, List.foldl_append]
  rfl

theorem Pushed.new (t : Clock) : Pushed [] (Message.new t) where
  nodup := List.nodup_singleton keyDate
  length := rfl
  size := by
    constructor
    · intro h
      cases h
    · rintro ⟨before, c, after, hsplit, -⟩
      exact absurd hsplit (by simp)

theorem Pushed.addOption {calls : List MessageCall} {m : Message} (h : Pushed calls m)
    (key value : Bytes) : Pushed (calls ++ [.addOption key value]) (m.addOption key value) where
  nodup := nodup_insertOption h.nodup
  length := by
    rw [pushedBytes_append]
    exact h.length
  size := by
    rw [sizeKept_append, addOption_data]
    by_cases hkey : key = keySize
    · subst hkey
      rw [getValue_addOption_self, h.length]
      simp [SetsSize, LeavesSize]
    · rw [getValue_addOption_other m value (Ne.symm hkey), h.size]
      simp [SetsSize, LeavesSize, hkey]

theorem Pushed.call {calls : List MessageCall} {m m' : Message} {c : MessageCall}
    (h : Pushed calls m) (hcall : m.call c = .ok m') : Pushed (calls ++ [c]) m' := by
  cases c with
  | setHead tid type =>
    cases hcall
    refine ⟨h.nodup, ?_, ?_⟩
    · rw [pushedBytes_append]
      exact h.length
    · rw [sizeKept_append]
      refine h.size.trans ?_
      simp [SetsSize, LeavesSize]
  | addOption key value =>
    cases hcall
    exact h.addOption key value
  | pushData buf size =>
    simp only [Message.call, pushData] at hcall
    split at hcall
    · cases hcall
    · rename_i hlen
      cases hcall
      refine ⟨nodup_insertOption h.nodup, ?_, ?_⟩
      · rw [pushedBytes_append, addOption_data, List.length_append, List.length_take, h.length]
        simp only
        omega
      · rw [sizeKept_append, getValue_addOption_self]
        exact iff_of_true rfl (.inl (.inl ⟨buf, size, rfl⟩))
  | clear =>
    cases hcall
    refine ⟨List.nodup_nil, ?_, ?_⟩
    · rw [pushedBytes_append]
      rfl
    · rw [sizeKept_append]
      apply iff_of_false
      · intro hsize
        cases hsize
      · simp [SetsSize, LeavesSize]

/-- The options as they are sent, where those are plain that the new sign does not replace. -/
theorem plain_signed {signGen : SHA256Generator} {m : Message} (hnodup : m.keys.Nodup)
    (hplain : ∀ o ∈ m.options, o.key = keySign ∨ Plain o) :
    ∀ o ∈ (signed signGen m).options, Plain o := by
  intro o ho
  have hsign : ⟨keySign, signGen.getHex m.getData⟩ ∈ (signed signGen m).options :=
    mem_insertOption_self _ _ _
  rcases mem_insertOption ho with hold | rfl
  · rcases hplain o hold with hkey | hplain
    · have hnodup' : (signed signGen m).keys.Nodup := nodup_insertOption hnodup
      rw [List.inj_on_of_nodup_map hnodup' ho hsign hkey]
      exact plain_sign signGen m.getData
    · exact hplain
  · exact plain_sign signGen m.getData

theorem Pushed.run {calls : List MessageCall} {t : Clock} {m : Message}
    (hrun : run Message.call (Message.new t) calls = .ok m) : Pushed calls m :=
  run_history (I := Pushed) (fun _ _ _ _ _ _ h hcall => h.call hcall) rfl (Pushed.new t) hrun

/-- The size is overwritten before the last push, and another option is added after it. -/
def sampleCalls : List MessageCall :=
  [.setHead 7 1, .pushData (ascii ['H', 'e', 'l', 'l', 'o', ' ', '?']) 6,
    .addOption keySize (ascii ['9']),
    .pushData (ascii ['W', 'o', 'r', 'l', 'd', '.', '?']) 6, .addOption keyDate []]

/-- A value that ends its own line and begins one for the size. -/
def forgedSize : Bytes :=
  ascii ['a', '"', '\r', '\n', '"', 's', 'i', 'z', 'e', '"', ':', '"', '9', '9']

/-- The message that it is added to, and the lines that its frame has. -/
def forgedSizeMessage : Message :=
  { (Message.new (sampleClock 0)).addOptions
    [⟨keySize, ascii ['1', '2']⟩, ⟨ascii ['x'], forgedSize⟩] with
    data := helloMessage.data }

def forgedSizeLines : List MessageOption :=
  [⟨keyDate, (sampleClock 0).text⟩, ⟨keySize, ascii ['1', '2']⟩, ⟨ascii ['x'], ascii ['a']⟩,
    ⟨keySize, ascii ['9', '9']⟩, ⟨keySign, helloDigest⟩]

theorem forgedSize_lines : optionText (signed helloGenerator forgedSizeMessage).options =
    optionText forgedSizeLines := by
  decide +kernel

end Proofs

end NetCpp
