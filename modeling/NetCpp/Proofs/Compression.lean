import NetCpp.Sha1
import NetCpp.Library.SecureHash

namespace NetCpp.Proofs
open Library Sha1

theorem rol_eq (x n : UInt32) : rol x n = SecureHash.rotl x n := rfl

theorem ch_eq (w x y : UInt32) : (w &&& (x ^^^ y)) ^^^ y = SecureHash.ch w x y := by
  apply UInt32.toBitVec_inj.mp
  ext i hi
  simp only [SecureHash.ch, UInt32.toBitVec_xor, UInt32.toBitVec_and, UInt32.toBitVec_not,
    BitVec.getElem_xor, BitVec.getElem_and, BitVec.getElem_not]
  cases w.toBitVec[i] <;> cases x.toBitVec[i] <;> cases y.toBitVec[i] <;> rfl

theorem maj_eq (w x y : UInt32) : ((w ||| x) &&& y) ||| (w &&& x) = SecureHash.maj w x y := by
  apply UInt32.toBitVec_inj.mp
  ext i hi
  simp only [SecureHash.maj, UInt32.toBitVec_xor, UInt32.toBitVec_and, UInt32.toBitVec_or,
    BitVec.getElem_xor, BitVec.getElem_and, BitVec.getElem_or]
  cases w.toBitVec[i] <;> cases x.toBitVec[i] <;> cases y.toBitVec[i] <;> rfl

theorem or_and (x y m : UInt32) : (x ||| y) &&& m = x &&& m ||| y &&& m := by
  apply UInt32.toBitVec_inj.mp
  ext i hi
  simp only [UInt32.toBitVec_and, UInt32.toBitVec_or, BitVec.getElem_and, BitVec.getElem_or]
  cases x.toBitVec[i] <;> cases y.toBitVec[i] <;> cases m.toBitVec[i] <;> rfl

theorem rol_or (x y n : UInt32) : rol (x ||| y) n = rol x n ||| rol y n := by
  simp only [rol, UInt32.shiftLeft_or, UInt32.shiftRight_or]
  ac_rfl

/-- What `blk0` makes of a word. -/
def swapped (l : UInt32) : UInt32 := (rol l 24 &&& 0xFF00FF00) ||| (rol l 8 &&& 0x00FF00FF)

theorem swapped_or (x y : UInt32) : swapped (x ||| y) = swapped x ||| swapped y := by
  simp only [swapped, rol_or, or_and]
  ac_rfl

theorem swapped_byte (b : Byte) :
    swapped b.toUInt32 = b.toUInt32 <<< 24 ∧ swapped (b.toUInt32 <<< 8) = b.toUInt32 <<< 16 ∧
      swapped (b.toUInt32 <<< 16) = b.toUInt32 <<< 8 ∧
      swapped (b.toUInt32 <<< 24) = b.toUInt32 := by
  have hall : ∀ n : Fin 256, let l := (UInt8.ofNat n).toUInt32
      swapped l = l <<< 24 ∧ swapped (l <<< 8) = l <<< 16 ∧ swapped (l <<< 16) = l <<< 8 ∧
        swapped (l <<< 24) = l := by
    decide +kernel
  simpa using hall ⟨b.toNat, b.toNat_lt⟩

/-- The least significant byte comes first in the union, the most significant one in the
schedule. -/
theorem swapped_load (buffer : Vector Byte 64) (i : Fin 16) :
    swapped ((load buffer).get i) = SecureHash.word buffer.toList i := by
  have hbyte (k : Nat) (hk : k < 64) : buffer.toList.getD k 0 = buffer[k] := by
    rw [List.getD_eq_getElem _ _ (by simpa using hk), Vector.getElem_toList]
  simp only [load, Vector.get_ofFn, swapped_or, SecureHash.word,
    hbyte _ (show 4 * i.val < 64 by omega),
    hbyte _ (show 4 * i.val + 1 < 64 by omega), hbyte _ (show 4 * i.val + 2 < 64 by omega),
    hbyte _ (show 4 * i.val + 3 < 64 by omega)]
  rw [(swapped_byte _).1, (swapped_byte _).2.1, (swapped_byte _).2.2.1, (swapped_byte _).2.2.2]

theorem get_set_vector {α : Type} {n : Nat} (v : Vector α n) (i j : Fin n) (x : α) :
    (v.set i.val x).get j = if i = j then x else v.get j := by
  simp only [Vector.get_eq_getElem, Vector.getElem_set, Fin.ext_iff]

/-- A cell of the block before line `t`: the words of the last 16 lines, and what was loaded. -/
structure Expanding (block : Char64Long16) (raw : Fin 16 → UInt32) (w : Nat → UInt32) (t : Nat) :
    Prop where
  recent : ∀ u, u < t → t ≤ u + 16 → block.get (.ofNat 16 u) = w u
  untouched : ∀ i : Fin 16, t ≤ i.val → block.get i = raw i

/-- A line writes word `t` over the one before the last 16. -/
theorem Expanding.set {block : Char64Long16} {raw : Fin 16 → UInt32} {w : Nat → UInt32} {t : Nat}
    (h : Expanding block raw w t) {x : UInt32} (hx : x = w t) :
    Expanding (block.set (t % 16) x (mod_sixteen_lt t)) raw w (t + 1) := by
  have hget (j : Fin 16) : (block.set (t % 16) x (mod_sixteen_lt t)).get j =
      if Fin.ofNat 16 t = j then x else block.get j := get_set_vector block (.ofNat 16 t) j x
  constructor
  · intro u hu hle
    rw [hget]
    by_cases heq : u = t
    · rw [heq, if_pos rfl, hx]
    · have hne : ¬ Fin.ofNat 16 t = Fin.ofNat 16 u := by
        simp only [Fin.ext_iff, Fin.val_ofNat]
        omega
      rw [if_neg hne]
      exact h.recent u (by omega) (by omega)
  · intro i hi
    have hne : ¬ Fin.ofNat 16 t = i := by
      simp only [Fin.ext_iff, Fin.val_ofNat]
      omega
    rw [hget, if_neg hne]
    exact h.untouched i (by omega)

theorem Expanding.blk0 {block : Char64Long16} {raw : Fin 16 → UInt32} {m : Nat → UInt32} {t : Nat}
    (h : Expanding block raw (SecureHash.schedule m) t) (ht : t < 16)
    (hraw : ∀ i : Fin 16, swapped (raw i) = m i) :
    Expanding (blk0 block t) raw (SecureHash.schedule m) (t + 1) := by
  apply h.set
  have hcell : Fin.ofNat 16 t = ⟨t, ht⟩ := by
    simp only [Fin.ext_iff, Fin.val_ofNat]
    omega
  rw [SecureHash.schedule_of_lt m ht, hcell, h.untouched ⟨t, ht⟩ (Nat.le_refl t)]
  exact hraw ⟨t, ht⟩

theorem Expanding.blk {block : Char64Long16} {raw : Fin 16 → UInt32} {m : Nat → UInt32} {t : Nat}
    (h : Expanding block raw (SecureHash.schedule m) t) (ht : 16 ≤ t) :
    Expanding (blk block t) raw (SecureHash.schedule m) (t + 1) := by
  have hcell (u : Nat) (d : Nat) (hd : u + 16 = t + d) (hu : u < t) (hle : t ≤ u + 16) :
      block.get (.ofNat 16 (t + d)) = SecureHash.schedule m u := by
    have hmod : Fin.ofNat 16 (t + d) = Fin.ofNat 16 u := by
      simp only [Fin.ext_iff, Fin.val_ofNat]
      omega
    rw [hmod, h.recent u hu hle]
  have hoverwritten : block.get (.ofNat 16 t) = SecureHash.schedule m (t - 16) :=
    hcell (t - 16) 0 (by omega) (by omega) (by omega)
  apply h.set
  rw [SecureHash.schedule_of_le m ht, hcell (t - 3) 13 (by omega) (by omega) (by omega),
    hcell (t - 8) 8 (by omega) (by omega) (by omega),
    hcell (t - 14) 2 (by omega) (by omega) (by omega), hoverwritten]
  rfl

theorem argument_ne {i k l : Nat} (hk : k < 5) (hl : l < 5) (h : k ≠ l) :
    argument i k ≠ argument i l := by
  simp only [argument, ne_eq, Fin.ext_iff]
  omega

theorem argument_succ (i k : Nat) : argument (i + 1) (k + 1) = argument i k := by
  simp only [argument, Fin.ext_iff]
  omega

theorem argument_succ_zero (i : Nat) : argument (i + 1) 0 = argument i 4 := by
  simp only [argument, Fin.ext_iff]
  omega

/-- The variables in the order in which line `t` names them. -/
def named (vars : Vector UInt32 5) (t : Nat) : SecureHash.Words :=
  #v[vars.get (argument t 0), vars.get (argument t 1), vars.get (argument t 2),
    vars.get (argument t 3), vars.get (argument t 4)]

theorem get_vars_r (f : UInt32 → UInt32 → UInt32 → UInt32)
    (expand : Char64Long16 → Nat → Char64Long16) (k : UInt32)
    {v w x y z : Fin 5} (h : z ≠ w) (i : Nat) (s : Working) (j : Fin 5) :
    (r f expand k v w x y z i s).vars.get j =
      if w = j then rol (s.vars.get w) 30
      else if z = j then s.vars.get z + (f (s.vars.get w) (s.vars.get x) (s.vars.get y) +
        (expand s.block i).get (.ofNat 16 i) + k + rol (s.vars.get v) 5)
      else s.vars.get j := by
  simp only [r, get_set_vector, if_neg h]

theorem named_succ {vars vars' : Vector UInt32 5} {t : Nat} {sum turned : UInt32}
    (h : ∀ j, vars'.get j = if argument t 1 = j then turned else if argument t 4 = j then sum
      else vars.get j) :
    named vars' (t + 1) =
      #v[sum, vars.get (argument t 0), turned, vars.get (argument t 2),
        vars.get (argument t 3)] := by
  have hkept (l : Nat) (hl : l < 4) (h1 : l ≠ 1) :
      vars'.get (argument t l) = vars.get (argument t l) := by
    rw [h, if_neg (argument_ne (by omega) (by omega) h1.symm),
      if_neg (argument_ne (by omega) (by omega) (by omega))]
  have hsum : vars'.get (argument t 4) = sum := by
    rw [h, if_neg (argument_ne (by omega) (by omega) (by omega)), if_pos rfl]
  have hturned : vars'.get (argument t 1) = turned := by rw [h, if_pos rfl]
  rw [named, argument_succ_zero, argument_succ t 0, argument_succ t 1, argument_succ t 2,
    argument_succ t 3, hsum,
    hturned, hkept 0 (by omega) (by omega), hkept 2 (by omega) (by omega),
    hkept 3 (by omega) (by omega)]

/-- A line is a round, whichever function, word and constant it adds. -/
theorem named_r {f : UInt32 → UInt32 → UInt32 → UInt32} {expand : Char64Long16 → Nat → Char64Long16}
    {k : UInt32} {s : Working} {t : Nat} {w : Nat → UInt32} (hf : f = SecureHash.logical t)
    (hk : k = SecureHash.constant t) (hw : (expand s.block t).get (.ofNat 16 t) = w t) :
    named (r f expand k (argument t 0) (argument t 1) (argument t 2) (argument t 3)
      (argument t 4) t s).vars (t + 1) = SecureHash.round w (named s.vars t) t := by
  have hne : argument t 4 ≠ argument t 1 := argument_ne (by omega) (by omega) (by omega)
  have hvars :=
    get_vars_r f expand k hne t s (v := argument t 0) (x := argument t 2) (y := argument t 3)
  have hsum (e g w' k' v' : UInt32) : e + (g + w' + k' + v') = v' + g + e + k' + w' := by ac_rfl
  rw [named_succ hvars, named, SecureHash.round_mk, hsum, rol_eq, rol_eq, hw, hf, hk]

/-- The lines so far against the rounds so far. -/
structure Rounded (raw : Fin 16 → UInt32) (m : Nat → UInt32) (h : SecureHash.Words) (s : Working)
    (t : Nat) : Prop where
  vars : named s.vars t = SecureHash.rounds (SecureHash.schedule m) h t
  block : Expanding s.block raw (SecureHash.schedule m) t

theorem Rounded.r {raw : Fin 16 → UInt32} {m : Nat → UInt32} {h : SecureHash.Words}
    {s : Working} {t : Nat} (hs : Rounded raw m h s t) {f : UInt32 → UInt32 → UInt32 → UInt32}
    {expand : Char64Long16 → Nat → Char64Long16} {k : UInt32}
    (hf : f = SecureHash.logical t) (hk : k = SecureHash.constant t)
    (hblock : Expanding (expand s.block t) raw (SecureHash.schedule m) (t + 1)) :
    Rounded raw m h
      (Sha1.r f expand k (argument t 0) (argument t 1) (argument t 2) (argument t 3)
        (argument t 4) t s) (t + 1) where
  vars := by
    rw [named_r hf hk (hblock.recent t (by omega) (by omega)), hs.vars]
    rfl
  block := hblock

/-- The five macros, each on its lines. -/
theorem Rounded.line {raw : Fin 16 → UInt32} {m : Nat → UInt32} {h : SecureHash.Words}
    {s : Working} {t : Nat} (hs : Rounded raw m h s t)
    (hraw : ∀ i : Fin 16, swapped (raw i) = m i) : Rounded raw m h (line s t) (t + 1) := by
  have hch : (fun w x y : UInt32 => (w &&& (x ^^^ y)) ^^^ y) = SecureHash.ch := by
    funext w x y
    exact ch_eq w x y
  have hmaj : (fun w x y : UInt32 => ((w ||| x) &&& y) ||| (w &&& x)) = SecureHash.maj := by
    funext w x y
    exact maj_eq w x y
  unfold Sha1.line
  by_cases h16 : t < 16
  · have h20 : t < 20 := by omega
    rw [if_pos h16]
    exact hs.r (by rw [SecureHash.logical, if_pos h20, hch])
      (by rw [SecureHash.constant, if_pos h20])
      (hs.block.blk0 h16 hraw)
  have hblk := hs.block.blk (Nat.not_lt.mp h16)
  rw [if_neg h16]
  by_cases h20 : t < 20
  · rw [if_pos h20]
    exact hs.r (by rw [SecureHash.logical, if_pos h20, hch])
      (by rw [SecureHash.constant, if_pos h20]) hblk
  rw [if_neg h20]
  by_cases h40 : t < 40
  · rw [if_pos h40]
    exact hs.r (by rw [SecureHash.logical, if_neg h20, if_pos h40]; rfl)
      (by rw [SecureHash.constant, if_neg h20, if_pos h40]) hblk
  rw [if_neg h40]
  by_cases h60 : t < 60
  · rw [if_pos h60]
    exact hs.r (by rw [SecureHash.logical, if_neg h20, if_neg h40, if_pos h60, hmaj])
      (by rw [SecureHash.constant, if_neg h20, if_neg h40, if_pos h60]) hblk
  · rw [if_neg h60]
    exact hs.r (by rw [SecureHash.logical, if_neg h20, if_neg h40, if_neg h60]; rfl)
      (by rw [SecureHash.constant, if_neg h20, if_neg h40, if_neg h60]) hblk

theorem Rounded.lines {raw : Fin 16 → UInt32} {m : Nat → UInt32} {h : SecureHash.Words}
    {s : Working} (hs : Rounded raw m h s 0) (hraw : ∀ i : Fin 16, swapped (raw i) = m i)
    (t : Nat) : Rounded raw m h (lines s t) t := by
  induction t with
  | zero => exact hs
  | succ t ih => exact ih.line hraw

/-- After 80 lines every variable has its own name again. -/
theorem named_of_dvd (vars : Vector UInt32 5) {t : Nat} (h : 5 ∣ t) : named vars t = vars := by
  have harg (k : Nat) (hk : k < 5) : argument t k = ⟨k, hk⟩ := by
    simp only [argument, Fin.ext_iff]
    omega
  unfold named
  rw [harg 0 (by omega), harg 1 (by omega), harg 2 (by omega), harg 3 (by omega), harg 4 (by omega)]
  apply Vector.ext
  intro i hi
  interval_cases i <;> rfl

theorem transform_eq (state : Vector UInt32 5) (buffer : Vector Byte 64) :
    transform state buffer = SecureHash.compress state buffer.toList := by
  have hstart : Rounded (load buffer).get (fun i => SecureHash.word buffer.toList i) state
      { vars := state, block := load buffer } 0 :=
    ⟨named_of_dvd state (Nat.dvd_zero 5), fun u hu => absurd hu (Nat.not_lt_zero u), fun i _ => rfl⟩
  have hvars := (hstart.lines (swapped_load buffer) 80).vars
  rw [named_of_dvd _ (by decide)] at hvars
  rw [transform, SecureHash.compress, hvars]

end NetCpp.Proofs
