import NetCpp.Basic

namespace NetCpp
open Library

/-- An entry of the option part of a message (`class Option`). -/
structure MessageOption where
  key : Bytes
  value : Bytes
deriving DecidableEq, Repr

namespace Message

def msgVersion : Int16 := 0

def msgHead : Bytes := ascii ['M', 'S', 'G']

def msgTail : Bytes := ascii ['G', 'S', 'M']

end Message

/-- A message. The source's `version` is `MSG_VERSION` in every message: nothing
ever assigns it. -/
structure Message where
  tid : Int32 := -1
  type : Int16 := 0
  options : List MessageOption := []
  data : Bytes := []
deriving DecidableEq, Repr

/-- The calendar fields `strftime` prints, each as its two digits. -/
structure Clock where
  month : Fin 100
  day : Fin 100
  year : Fin 100
  hour : Fin 100
  minute : Fin 100
  second : Fin 100
deriving DecidableEq, Repr

/-- `strftime(buf, sizeof(buf), "%D %T %Z", gmtime(&t))` -/
def Clock.text (t : Clock) : Bytes :=
  let two := fun n : Fin 100 => [Decimal.digit (n / 10), Decimal.digit (n % 10)]
  let slash := ascii ['/']
  two t.month ++ slash ++ two t.day ++ slash ++ two t.year ++ [space] ++
    two t.hour ++ [colon] ++ two t.minute ++ [colon] ++ two t.second ++ ascii [' ', 'G', 'M', 'T']

namespace Message

def keyDate : Bytes := ascii ['d', 'a', 't', 'e']

def keySize : Bytes := ascii ['s', 'i', 'z', 'e']

def keySign : Bytes := ascii ['s', 'i', 'g', 'n']

/-- The loop of `addOption`: the first entry of the key gets the value, a new key
goes to the end. -/
def insertOption (key value : Bytes) : List MessageOption → List MessageOption
  | [] => [⟨key, value⟩]
  | o :: os =>
    if o.key = key then { o with value := value } :: os else o :: insertOption key value os

def addOption (m : Message) (key value : Bytes) : Message :=
  { m with options := insertOption key value m.options }

/-- A missing key makes `getValue` throw a pointer to a `std::runtime_error`. -/
def getValue (m : Message) (key : Bytes) : Except Fault Bytes :=
  match m.options.find? (fun o => o.key = key) with
  | some o => .ok o.value
  | none => .error (.runtimeErrorPointer "key not found")

/-- `pushData`, given the bytes that lie in memory from `buf` on. -/
def pushData (m : Message) (buf : Bytes) (size : Nat) : Except Fault Message :=
  if buf.length < size then .error .readOutside
  else
    let data := m.data ++ buf.take size
    .ok ({ m with data := data }.addOption keySize (Decimal.ofNat data.length))

def clear (m : Message) : Message := { m with data := [], options := [], tid := 0, type := 1 }

def setHead (m : Message) (tid : Int32) (type : Int16) : Message :=
  { m with tid := tid, type := type }

def getData (m : Message) : Bytes := m.data

/-- `Message::Message()` at a reading of the clock. -/
def new (t : Clock) : Message := ({} : Message).addOption keyDate t.text

def keys (m : Message) : List Bytes := m.options.map MessageOption.key

/-- The loop that adds options one after the other. -/
def addOptions (m : Message) (os : List MessageOption) : Message :=
  os.foldl (fun m o => m.addOption o.key o.value) m

section Options
variable {key value : Bytes} {os : List MessageOption}

theorem mem_insertOption_self (key value : Bytes) (os : List MessageOption) :
    ⟨key, value⟩ ∈ insertOption key value os := by
  induction os with
  | nil => exact List.mem_singleton_self _
  | cons o os ih =>
    rw [insertOption]
    split
    · rename_i hkey
      rw [hkey]
      exact List.mem_cons_self
    · exact List.mem_cons_of_mem o ih

theorem mem_insertOption {o : MessageOption} (ho : o ∈ insertOption key value os) :
    o ∈ os ∨ o = ⟨key, value⟩ := by
  induction os with
  | nil => exact Or.inr (List.mem_singleton.mp ho)
  | cons p os ih =>
    unfold insertOption at ho
    split at ho
    · rename_i hp
      rcases List.mem_cons.mp ho with rfl | ho
      · exact Or.inr (by rw [← hp])
      · exact Or.inl (List.mem_cons_of_mem p ho)
    · rcases List.mem_cons.mp ho with rfl | ho
      · exact Or.inl List.mem_cons_self
      · rcases ih ho with h | h
        · exact Or.inl (List.mem_cons_of_mem p h)
        · exact Or.inr h

/-- The keys after `addOption`: the same when the key is there, one more otherwise. -/
theorem keys_insertOption : (insertOption key value os).map MessageOption.key =
    if key ∈ os.map MessageOption.key then os.map MessageOption.key
    else os.map MessageOption.key ++ [key] := by
  induction os with
  | nil => simp [insertOption]
  | cons p os ih =>
    unfold insertOption
    by_cases hp : p.key = key
    · simp [hp]
    · simp only [if_neg hp, List.map_cons, ih, List.mem_cons, Ne.symm hp, false_or]
      split <;> simp

theorem nodup_insertOption (h : (os.map MessageOption.key).Nodup) :
    ((insertOption key value os).map MessageOption.key).Nodup := by
  rw [keys_insertOption]
  split
  · exact h
  · rename_i hk
    rw [List.nodup_append]
    refine ⟨h, List.nodup_singleton key, ?_⟩
    intro k hk' l hl he
    rw [List.mem_singleton.mp hl] at he
    exact hk (he ▸ hk')

theorem insertOption_new (hk : key ∉ os.map MessageOption.key) :
    insertOption key value os = os ++ [⟨key, value⟩] := by
  induction os with
  | nil => rfl
  | cons p os ih =>
    simp only [List.map_cons, List.mem_cons, not_or] at hk
    simp [insertOption, Ne.symm hk.1, ih hk.2]

/-- Writing the value that is already there changes nothing. -/
theorem insertOption_self (h : (os.find? (fun o => o.key = key)) = some o) :
    insertOption key o.value os = os := by
  induction os with
  | nil => cases h
  | cons p os ih =>
    unfold insertOption
    by_cases hp : p.key = key
    · rw [List.find?_cons_of_pos (by simpa using hp)] at h
      cases h
      rw [if_pos hp]
    · rw [List.find?_cons_of_neg (by simpa using hp)] at h
      simp [hp, ih h]

theorem find_insertOption_self :
    (insertOption key value os).find? (fun o => o.key = key) = some ⟨key, value⟩ := by
  induction os with
  | nil => simp [insertOption]
  | cons p os ih =>
    unfold insertOption
    by_cases hp : p.key = key
    · simp [hp]
    · simpa [hp] using ih

theorem find_insertOption_other {other : Bytes} (h : other ≠ key) :
    (insertOption key value os).find? (fun o => o.key = other) =
      os.find? (fun o => o.key = other) := by
  induction os with
  | nil => simp [insertOption, Ne.symm h]
  | cons p os ih =>
    unfold insertOption
    by_cases hp : p.key = key
    · simp [hp, Ne.symm h]
    · rw [if_neg hp, List.find?_cons, List.find?_cons, ih]

/-- With distinct keys, looking for the key of an entry finds that entry. -/
theorem find_of_mem {o : MessageOption} (hu : (os.map MessageOption.key).Nodup) (ho : o ∈ os) :
    os.find? (fun p => p.key = o.key) = some o := by
  induction os with
  | nil => cases ho
  | cons p os ih =>
    obtain ⟨hp, hos⟩ := List.nodup_cons.mp hu
    rcases List.mem_cons.mp ho with rfl | ho
    · simp
    · have hne : p.key ≠ o.key := fun he => hp (he ▸ List.mem_map_of_mem ho)
      rw [List.find?_cons_of_neg (by simpa using hne)]
      exact ih hos ho

theorem length_insertOption_le : (insertOption key value os).length ≤ os.length + 1 := by
  have h := congrArg List.length (@keys_insertOption key value os)
  rw [List.length_map] at h
  rw [h]
  split <;> simp

end Options

@[simp] theorem getValue_addOption_self (m : Message) (key value : Bytes) :
    (m.addOption key value).getValue key = .ok value := by
  simp [getValue, addOption, find_insertOption_self]

theorem getValue_addOption_other (m : Message) {key other : Bytes} (value : Bytes)
    (h : other ≠ key) : (m.addOption key value).getValue other = m.getValue other := by
  simp [getValue, addOption, find_insertOption_other h]

theorem getValue_ok {m : Message} {key value : Bytes} (h : m.getValue key = .ok value) :
    ⟨key, value⟩ ∈ m.options := by
  unfold getValue at h
  split at h
  · rename_i o ho
    cases h
    have hk : o.key = key := by simpa using List.find?_some ho
    have hm := List.mem_of_find?_eq_some ho
    rwa [← hk]
  · cases h

theorem addOption_self {m : Message} {key value : Bytes} (h : m.getValue key = .ok value) :
    m.addOption key value = m := by
  unfold getValue at h
  split at h
  · rename_i o ho
    cases h
    rw [addOption, insertOption_self ho]
  · cases h

theorem mem_keys_of_getValue {m : Message} {key value : Bytes} (h : m.getValue key = .ok value) :
    key ∈ m.keys :=
  List.mem_map.mpr ⟨_, getValue_ok h, rfl⟩

@[simp] theorem addOptions_nil (m : Message) : m.addOptions [] = m := rfl

@[simp] theorem addOptions_cons (m : Message) (o : MessageOption) (os : List MessageOption) :
    m.addOptions (o :: os) = (m.addOption o.key o.value).addOptions os := rfl

@[simp] theorem addOption_tid (m : Message) (key value : Bytes) :
    (m.addOption key value).tid = m.tid := rfl

@[simp] theorem addOption_type (m : Message) (key value : Bytes) :
    (m.addOption key value).type = m.type := rfl

@[simp] theorem addOption_data (m : Message) (key value : Bytes) :
    (m.addOption key value).data = m.data := rfl

/-- Adding options changes nothing else, and adds at most one entry for each. -/
theorem addOptions_frame (m : Message) (os : List MessageOption) :
    (m.addOptions os).tid = m.tid ∧ (m.addOptions os).type = m.type ∧
      (m.addOptions os).data = m.data ∧
      (m.addOptions os).options.length ≤ m.options.length + os.length := by
  induction os generalizing m with
  | nil => simp
  | cons o os ih =>
    obtain ⟨ht, hy, hd, hl⟩ := ih (m.addOption o.key o.value)
    have hk : (m.addOption o.key o.value).options.length ≤ m.options.length + 1 :=
      length_insertOption_le
    refine ⟨ht, hy, hd, ?_⟩
    simp only [List.length_cons]
    exact Nat.le_trans hl (by omega)

/-- Options with new and distinct keys are added as they are listed. -/
theorem addOptions_options {m : Message} {os : List MessageOption}
    (hu : (m.options ++ os).map MessageOption.key |>.Nodup) :
    (m.addOptions os).options = m.options ++ os := by
  induction os generalizing m with
  | nil => simp
  | cons o os ih =>
    have hk : o.key ∉ m.options.map MessageOption.key := by
      intro hm
      rw [List.map_append, List.nodup_append] at hu
      exact hu.2.2 _ hm _ (List.mem_map_of_mem List.mem_cons_self) rfl
    have he : (m.addOption o.key o.value).options = m.options ++ [o] := insertOption_new hk
    rw [addOptions_cons, ih (by rw [he, List.append_assoc]; exact hu), he, List.append_assoc]
    rfl

theorem addOptions_nodup {m : Message} (os : List MessageOption) (hu : m.keys.Nodup) :
    (m.addOptions os).keys.Nodup := by
  induction os generalizing m with
  | nil => exact hu
  | cons o os ih => exact ih (nodup_insertOption hu)

theorem mem_addOptions {m : Message} {os : List MessageOption} {p : MessageOption}
    (hp : p ∈ (m.addOptions os).options) : p ∈ m.options ∨ p ∈ os := by
  induction os generalizing m with
  | nil => exact Or.inl hp
  | cons o os ih =>
    rcases ih hp with h | h
    · rcases mem_insertOption h with h | h
      · exact Or.inl h
      · exact Or.inr (List.mem_cons.mpr (Or.inl h))
    · exact Or.inr (List.mem_cons_of_mem o h)

end Message

end NetCpp
