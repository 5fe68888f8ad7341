import NetCpp.Build

namespace NetCpp.Proofs
open Proj

/-- No two rows have an `id` or a name in common, and a row that refers to others refers to rows
that are there and belong together. -/
structure Tables (db : Database) : Prop where
  srcIds : (db.srcfiles.map SrcRow.id).Nodup
  srcNames : (db.srcfiles.map SrcRow.name).Nodup
  libIds : (db.libfiles.map LibRow.id).Nodup
  libNames : (db.libfiles.map LibRow.name).Nodup
  funcIds : (db.functions.map FuncRow.id).Nodup
  funcNames : (db.functions.map FuncRow.name).Nodup
  libs : ∀ l ∈ db.libfiles, ∃ r ∈ db.srcfiles, l.name = libName r.name
  funcs : ∀ f ∈ db.functions, ∃ r ∈ db.srcfiles, ∃ l ∈ db.libfiles,
    f.srcfileId = r.id ∧ f.libfileId = l.id ∧ l.name = libName r.name

theorem libName_injective {a b : Bytes} (h : libName a = libName b) : a = b := by
  unfold libName at h
  exact List.append_cancel_left (List.append_cancel_right h)

theorem le_foldl_max (ids : List Nat) (m : Nat) :
    m ≤ ids.foldl max m ∧ ∀ i ∈ ids, i ≤ ids.foldl max m := by
  induction ids generalizing m with
  | nil => exact ⟨Nat.le_refl m, fun i hi => absurd hi List.not_mem_nil⟩
  | cons i ids ih =>
    obtain ⟨hm, hids⟩ := ih (max m i)
    refine ⟨le_trans (Nat.le_max_left m i) hm, fun j hj => ?_⟩
    rcases List.mem_cons.mp hj with rfl | hj
    · exact le_trans (Nat.le_max_right m j) hm
    · exact hids j hj

theorem not_mem_of_lastId_lt {ids : List Nat} {i : Nat} (h : lastId ids < i) : i ∉ ids := by
  intro hi
  have hle := (le_foldl_max ids 0).2 i hi
  exact absurd h (Nat.not_lt.mpr hle)

theorem findSrc_some {db : Database} {name : Bytes} {r : SrcRow} (h : db.findSrc name = some r) :
    r ∈ db.srcfiles ∧ r.name = name :=
  ⟨List.mem_of_find?_eq_some h, by simpa using List.find?_some h⟩

theorem findLib_some {db : Database} {name : Bytes} {l : LibRow} (h : db.findLib name = some l) :
    l ∈ db.libfiles ∧ l.name = name :=
  ⟨List.mem_of_find?_eq_some h, by simpa using List.find?_some h⟩

theorem findSrc_none {db : Database} {name : Bytes} :
    db.findSrc name = none ↔ name ∉ db.srcfiles.map SrcRow.name := by
  simp [Database.findSrc, List.find?_eq_none]

/-- A name has one row. -/
theorem Tables.src_eq {db : Database} (h : Tables db) {r r' : SrcRow} (hr : r ∈ db.srcfiles)
    (hr' : r' ∈ db.srcfiles) (hname : r.name = r'.name) : r = r' :=
  List.inj_on_of_nodup_map h.srcNames hr hr' hname

theorem Tables.findSrc {db : Database} (h : Tables db) {r : SrcRow} (hr : r ∈ db.srcfiles) :
    db.findSrc r.name = some r := by
  cases hfind : db.findSrc r.name with
  | none => exact absurd (List.mem_map_of_mem hr) (findSrc_none.mp hfind)
  | some r' =>
    obtain ⟨hmem, hname⟩ := findSrc_some hfind
    rw [h.src_eq hmem hr hname]

theorem nodup_append_new {α β : Type} {f : α → β} {xs : List α} {x : α} (h : (xs.map f).Nodup)
    (hx : f x ∉ xs.map f) : ((xs ++ [x]).map f).Nodup := by
  rw [List.map_append, List.nodup_append]
  refine ⟨h, List.nodup_singleton (f x), ?_⟩
  rintro a ha b hb rfl
  rw [List.mem_singleton.mp hb] at ha
  exact hx ha

theorem Tables.insertSrc {db : Database} (h : Tables db) {row : SrcRow}
    (hname : row.name ∉ db.srcfiles.map SrcRow.name) : Tables (db.insertSrc row) := by
  unfold Database.insertSrc
  split
  · exact h
  · rename_i hid
    refine { h with
      srcIds := nodup_append_new h.srcIds hid, srcNames :=
        nodup_append_new h.srcNames hname, libs := ?_, funcs := ?_ }
    · intro l hl
      obtain ⟨r, hr, hl⟩ := h.libs l hl
      exact ⟨r, List.mem_append_left _ hr, hl⟩
    · intro f hf
      obtain ⟨r, hr, hf⟩ := h.funcs f hf
      exact ⟨r, List.mem_append_left _ hr, hf⟩

theorem Tables.insertLib {db : Database} (h : Tables db) {row : LibRow}
    (hname : row.name ∉ db.libfiles.map LibRow.name)
    (hsrc : ∃ r ∈ db.srcfiles, row.name = libName r.name) : Tables (db.insertLib row) := by
  unfold Database.insertLib
  split
  · exact h
  · rename_i hid
    refine { h with
      libIds := nodup_append_new h.libIds hid, libNames :=
        nodup_append_new h.libNames hname, libs := ?_, funcs := ?_ }
    · intro l hl
      rcases List.mem_append.mp hl with hl | hl
      · exact h.libs l hl
      · rw [List.mem_singleton.mp hl]
        exact hsrc
    · intro f hf
      obtain ⟨r, hr, l, hl, hf⟩ := h.funcs f hf
      exact ⟨r, hr, l, List.mem_append_left _ hl, hf⟩

theorem Tables.insertFunc {db : Database} (h : Tables db) {row : FuncRow}
    (hname : row.name ∉ db.functions.map FuncRow.name) (hrow : ∃ r ∈ db.srcfiles, ∃ l ∈ db.libfiles,
      row.srcfileId = r.id ∧ row.libfileId = l.id ∧
      l.name = libName r.name) : Tables (db.insertFunc row) := by
  unfold Database.insertFunc
  split
  · exact h
  · rename_i hid
    refine { h with
      funcIds := nodup_append_new h.funcIds hid, funcNames :=
        nodup_append_new h.funcNames hname, funcs := ?_ }
    intro f hf
    rcases List.mem_append.mp hf with hf | hf
    · exact h.funcs f hf
    · rw [List.mem_singleton.mp hf]
      exact hrow

/-- What `updateMd5` makes of a row. -/
def digested (name md5 : Bytes) (row : SrcRow) : SrcRow :=
  if row.name = name then { row with md5 } else row

@[simp] theorem digested_id (name md5 : Bytes) (row : SrcRow) :
    (digested name md5 row).id = row.id := by
  unfold digested
  split <;> rfl

@[simp] theorem digested_name (name md5 : Bytes) (row : SrcRow) :
    (digested name md5 row).name = row.name := by
  unfold digested
  split <;> rfl

theorem updateMd5_srcfiles (db : Database) (name md5 : Bytes) :
    (db.updateMd5 name md5).srcfiles = db.srcfiles.map (digested name md5) := rfl

@[simp] theorem updateMd5_names (db : Database) (name md5 : Bytes) :
    (db.updateMd5 name md5).srcfiles.map SrcRow.name = db.srcfiles.map SrcRow.name := by
  simp [updateMd5_srcfiles, Function.comp_def]

theorem Tables.updateMd5 {db : Database} (h : Tables db) (name md5 : Bytes) :
    Tables (db.updateMd5 name md5) := by
  refine { h with srcIds := ?_, srcNames := ?_, libs := ?_, funcs := ?_ }
  · simpa [updateMd5_srcfiles, Function.comp_def] using h.srcIds
  · simpa using h.srcNames
  · intro l hl
    obtain ⟨r, hr, hl⟩ := h.libs l hl
    exact ⟨digested name md5 r, List.mem_map_of_mem hr, by simpa using hl⟩
  · intro f hf
    obtain ⟨r, hr, l, hl, hid, hf⟩ := h.funcs f hf
    exact ⟨digested name md5 r, List.mem_map_of_mem hr, l,
      hl, by simpa using hid, by simpa using hf⟩

theorem Tables.fargs {db : Database} (h : Tables db) (fargs : List Bytes) : Tables
    { db with fargs } := { h with }

end NetCpp.Proofs
