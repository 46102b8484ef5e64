import Mungi.Lib.Bytes
import Mungi.Lib.Spans
import Mathlib.Logic.Function.Basic

/-!
# The environment of a new thread

`fexec` creates an object for the thread that it starts, and writes what the thread is to know into
records of it (`env.c`): one for the table of open files (`oftab.c`) and one for the name space,
each behind a header with its type and its size, and then a header that marks the end.  `env_decode`
goes through the records.  The position of the end is computed in units of a header instead of
bytes, and the size of the table leaves the number of files out, which comes first.

What the name space is made of is left to its own functions; here it is as many bytes as they say.
An access outside the object gives no result.

## Main definitions

* `OpenFile`, `FileTable` — open files.
* `oftSerialise`, `oftDeserialise`, `fexec`, `envDecode` — the functions.
* `EnvRoundTrip` — the thread decodes what was written for it.

## Main results

* `env_round_trip_never` — **the end mark is never found, and the records always overlap.**
-/

namespace Mungi

open Bytes Spans

/-! ### Open files -/

/-- `OFT_SIZE` -/
def oftSize : ℕ := 10

/-- `ENV_SIZE` -/
def envSize : ℕ := 10 * 4096

/-- The types of records, `ENV_END` first. -/
def envEnd : ℕ := 0
def envFileTable : ℕ := 2
def envNamespace : ℕ := 3

/-- `_FT_PDX` -/
def ftPdx : BitVec 32 := 0

/-- `sizeof(struct env_header)` and `sizeof(struct env_rec)`. -/
def envHeaderSize : ℕ := 16
def envRecSize : ℕ := 16

/-- `sizeof(_open_file)`, and the place of the first one in a `struct env_filetable`. -/
def openFileSize : ℕ := 96
def filesOffset : ℕ := 8

/-- `_open_file`.  The union is kept as bytes; in a PDX stream the last 16 are the buffer. -/
structure OpenFile where
  refCount : BitVec 32
  type : BitVec 32
  data : Fin 88 → BitVec 8

/-- The bytes of an open file. -/
def OpenFile.bytes (o : ByteOrder) (f : OpenFile) (i : ℕ) : BitVec 8 :=
  if i < 4 then o.byte 4 f.refCount.toNat i
  else if i < 8 then o.byte 4 f.type.toNat (i - 4)
  else if h : i - 8 < 88 then f.data ⟨i - 8, h⟩
  else 0

/-- The open file at `p`. -/
def readOpenFile (o : ByteOrder) (m : ℕ → BitVec 8) (p : ℕ) : OpenFile where
  refCount := BitVec.ofNat 32 (load o m p 4)
  type := BitVec.ofNat 32 (load o m (p + 4) 4)
  data i := m (p + 8 + i)

/-- The buffer of a PDX stream is cleared. -/
def OpenFile.cleared (f : OpenFile) : OpenFile :=
  if f.type = ftPdx then { f with data := fun i => if 72 ≤ i.val then 0 else f.data i } else f

/-- `oftab` and `_open_max`. -/
structure FileTable where
  oftab : ℕ → Option OpenFile
  openMax : ℤ

/-- The table of a process: no file is open from `_open_max` on. -/
structure OpenFiles extends FileTable where
  nonneg : 0 ≤ openMax
  bound : openMax ≤ oftSize
  beyond : ∀ i : ℕ, openMax ≤ i → oftab i = none

/-- `_oft_set`, with whether `malloc` has memory. -/
def oftSet (t : FileTable) (room : Bool) (desc : ℕ) (file : OpenFile) : FileTable :=
  if room then
    { oftab := Function.update t.oftab desc (some { file with refCount := 1 })
      openMax := if t.openMax ≤ desc then desc + 1 else t.openMax }
  else t

/-- `_oft_serialise`, and the size. -/
def oftSerialise (o : ByteOrder) (t : FileTable) (dest : ℕ) (m : ℕ → BitVec 8) :
    (ℕ → BitVec 8) × ℕ :=
  ((List.range t.openMax.toNat).foldl (fun m i =>
    copy m (dest + filesOffset + openFileSize * i) openFileSize fun j =>
      ((t.oftab i).map fun f => f.bytes o j).getD 0) (store o m dest 4 t.openMax.toNat),
    t.openMax.toNat * openFileSize)

/-- `_oft_deserialise`, with the answers of `malloc`. -/
def oftDeserialise (o : ByteOrder) (room : ℕ → Bool) (m : ℕ → BitVec 8) (data : ℕ) (t : FileTable) :
    Option FileTable :=
  let numFiles := (BitVec.ofNat 32 (load o m data 4)).toInt
  if (oftSize : ℤ) < numFiles then none
  else
    let t := (List.range numFiles.toNat).foldl (fun t i =>
      let file := readOpenFile o m (data + filesOffset + openFileSize * i)
      if file.refCount ≠ 0 then oftSet t (room i) i file
      else { t with oftab := Function.update t.oftab i none }) { t with openMax := numFiles }
    some ((List.range numFiles.toNat).foldl (fun t i =>
      { t with oftab := Function.update t.oftab i ((t.oftab i).map OpenFile.cleared) }) t)

/-! ### Records -/

/-- `align` -/
def envAlign (val : ℕ) : ℕ := if val % 8 ≠ 0 then (val + (8 - val % 8)) % 2 ^ 64 else val

/-- A header is written. -/
def storeRec (o : ByteOrder) (m : ℕ → BitVec 8) (p type size : ℕ) : ℕ → BitVec 8 :=
  store o (store o m p 8 type) (p + 8) 8 size

/-- The bytes of `ENV_MAGIC`, with the one that ends it. -/
def envMagic (i : ℕ) : BitVec 8 := ([80, 65, 78, 84, 83, 33] : List (BitVec 8)).getD i 0

/-- Where the header of the file table is, and that of the name space. -/
def fileTableRec : ℕ := envHeaderSize
def namespaceRec (t : FileTable) : ℕ :=
  fileTableRec + envRecSize + envAlign (t.openMax.toNat * openFileSize)

/-- Where `fexec` writes the mark of the end, behind a name space of `size` bytes: `local_size`
headers behind the last one. -/
def endRec (t : FileTable) (size : ℕ) : ℕ := namespaceRec t + envRecSize * envAlign size

/-- `fexec`, as far as it fills the object: what the object has then. -/
def fexec (o : ByteOrder) (t : FileTable) (names : List (BitVec 8)) (m : ℕ → BitVec 8) :
    Option (ℕ → BitVec 8) :=
  let m := store o (copy m 0 7 envMagic) 8 8 0
  let r := oftSerialise o t (fileTableRec + envRecSize) m
  let localSize := envAlign r.2
  let m := storeRec o r.1 fileTableRec envFileTable localSize
  let envData := fileTableRec + envRecSize + localSize + envRecSize
  if envSize < envData + names.length ∨ envSize < endRec t names.length + envRecSize then none
  else
    let m := copy m envData names.length fun i => names.getD i 0
    let m := storeRec o m (envData - envRecSize) envNamespace (envAlign names.length)
    let m := storeRec o m (endRec t names.length) envEnd 0
    some (store o m 8 8
      (envRecSize + localSize + (envRecSize + envAlign names.length) + envRecSize))

/-- What the thread has decoded: its table of open files, the bytes of its name space, and the types
and the places of the records. -/
structure Decoded where
  files : FileTable
  names : List (BitVec 8)
  records : List (ℕ × ℕ)

/-- `deserialise`, and the place of the next record. -/
def deserialise (o : ByteOrder) (room : ℕ → Bool) (m : ℕ → BitVec 8) (record : ℕ) (d : Decoded) :
    Option (ℕ × Decoded) :=
  let type := load o m record 8
  let size := load o m (record + 8) 8
  let next := (record + (envAlign size + envRecSize)) % 2 ^ 64
  let data := record + envRecSize
  let noted := { d with records := d.records ++ [(type, record)] }
  if type = envFileTable then
    (oftDeserialise o room m data d.files).map fun files => (next, { noted with files })
  else if type = envNamespace then
    if envSize < data + size then none
    else some (next, { noted with names := (List.range size).map fun i => m (data + i) })
  else some (next, noted)

/-- The loop of `env_decode`: where it stops, and what was decoded. -/
def envDecodeFrom (o : ByteOrder) (room : ℕ → Bool) (m : ℕ → BitVec 8) :
    ℕ → ℕ → Decoded → Option (ℕ × Decoded)
  | 0, _, _ => none
  | n + 1, header, d =>
    if envSize < header + envRecSize then none
    else if load o m header 8 = envEnd then some (header, d)
    else (deserialise o room m header d).bind fun r => envDecodeFrom o room m n r.1 r.2

/-- `env_decode`: `none` inside for an error. -/
def envDecode (o : ByteOrder) (room : ℕ → Bool) (m : ℕ → BitVec 8) (fuel : ℕ) (files : FileTable) :
    Option (Option (ℕ × Decoded)) :=
  if (List.range 6).all fun i => m i = envMagic i then
    (envDecodeFrom o room m fuel envHeaderSize ⟨files, [], []⟩).map some
  else some none

/-! ### The round trip -/

/-- The table of open files of a thread that has just been started. -/
def noFiles : FileTable := ⟨fun _ => none, 0⟩

/-- The bytes that `fexec` writes for the records, the header and the data of each, and for the
end. -/
def envSpans (t : FileTable) (size : ℕ) : List Span :=
  let files := fileTableRec + envRecSize
  [⟨fileTableRec, if t.openMax.toNat = 0 then files + 4
      else files + filesOffset + openFileSize * t.openMax.toNat⟩,
    ⟨namespaceRec t, namespaceRec t + envRecSize + size⟩,
    ⟨endRec t size, endRec t size + envRecSize⟩]

/-- No record overwrites another one. -/
def RecordsApart (t : FileTable) (size : ℕ) : Prop :=
  (envSpans t size).Pairwise fun a b => a.hi ≤ b.lo ∨ b.hi ≤ a.lo

instance (t : FileTable) (size : ℕ) : Decidable (RecordsApart t size) :=
  inferInstanceAs (Decidable (List.Pairwise _ _))

/-- `env_decode` comes to the end after the two records, at the mark that `fexec` wrote. -/
def DecodesToEnd (o : ByteOrder) (room : ℕ → Bool) (t : FileTable) (names : List (BitVec 8))
    (m : ℕ → BitVec 8) (d : Decoded) : Prop :=
  ∃ m', fexec o t names m = some m' ∧ ∃ fuel,
    envDecode o room m' fuel noFiles = some (some (endRec t names.length, d)) ∧
      d.records = [(envFileTable, fileTableRec), (envNamespace, namespaceRec t)]

/-- **The round trip.**  The thread decodes the two records and stops at the mark of the end, its
files are those that were open, its name space is the one that was written, and no record has
overwritten another one. -/
def EnvRoundTrip (o : ByteOrder) (room : ℕ → Bool) (t : FileTable) (names : List (BitVec 8))
    (m : ℕ → BitVec 8) : Prop :=
  (∃ d, DecodesToEnd o room t names m d ∧
    (∀ i, d.files.oftab i = (t.oftab i).map OpenFile.cleared) ∧
      d.names.take names.length = names) ∧
    RecordsApart t names.length

/-! ### Where decoding stops -/

variable {o : ByteOrder} {room : ℕ → Bool} {m m' : ℕ → BitVec 8} {t : FileTable}
  {names : List (BitVec 8)} {d d' : Decoded} {n header stop : ℕ}

theorem envAlign_spec {v : ℕ} (hv : v ≤ envSize) :
    v ≤ envAlign v ∧ envAlign v < v + 8 ∧ envAlign v % 8 = 0 := by
  unfold envAlign envSize at *
  split_ifs <;> omega

/-- The place behind the record at `header`. -/
def nextRec (o : ByteOrder) (m : ℕ → BitVec 8) (header : ℕ) : ℕ :=
  (header + (envAlign (load o m (header + 8) 8) + envRecSize)) % 2 ^ 64

/-- The records `l` follow each other from `header` on, and the end is at `stop`. -/
def RecordsFrom (o : ByteOrder) (m : ℕ → BitVec 8) : ℕ → List (ℕ × ℕ) → ℕ → Prop
  | header, [], stop => header = stop ∧ load o m header 8 = envEnd
  | header, r :: l, stop =>
    r = (load o m header 8, header) ∧ r.1 ≠ envEnd ∧ RecordsFrom o m (nextRec o m header) l stop

theorem deserialise_next {next : ℕ} (h : deserialise o room m header d = some (next, d')) :
    next = nextRec o m header ∧ d'.records = d.records ++ [(load o m header 8, header)] := by
  unfold deserialise at h
  dsimp only at h
  split_ifs at h
  · obtain ⟨files, -, heq⟩ := Option.map_eq_some_iff.mp h
    obtain ⟨rfl, rfl⟩ := Prod.mk.inj heq
    exact ⟨rfl, rfl⟩
  · obtain ⟨rfl, rfl⟩ := Prod.mk.inj (Option.some.inj h)
    exact ⟨rfl, rfl⟩
  · obtain ⟨rfl, rfl⟩ := Prod.mk.inj (Option.some.inj h)
    exact ⟨rfl, rfl⟩

/-- **What `env_decode` goes through.** -/
theorem envDecodeFrom_records (h : envDecodeFrom o room m n header d = some (stop, d')) :
    ∃ l, d'.records = d.records ++ l ∧ RecordsFrom o m header l stop := by
  induction n generalizing header d with
  | zero => cases h
  | succ n ih =>
    rw [envDecodeFrom] at h
    split_ifs at h with hfits hend
    · obtain ⟨rfl, rfl⟩ := Prod.mk.inj (Option.some.inj h)
      exact ⟨[], (List.append_nil _).symm, rfl, hend⟩
    · obtain ⟨⟨next, d₁⟩, hrec, h⟩ := Option.bind_eq_some_iff.mp h
      obtain ⟨rfl, hd₁⟩ := deserialise_next hrec
      obtain ⟨l, hl, hfrom⟩ := ih h
      refine ⟨(load o m header 8, header) :: l, ?_, rfl, hend, hfrom⟩
      rw [hl, hd₁, List.append_assoc]
      rfl

/-! ### What is in the object -/

theorem load_storeRec_type {p type size : ℕ} :
    load o (storeRec o m p type size) p 8 = type % 256 ^ 8 := by
  unfold storeRec
  rw [load_store_of_apart (Or.inl (le_refl _)), load_store_self]

theorem load_storeRec_size {p type size : ℕ} :
    load o (storeRec o m p type size) (p + 8) 8 = size % 256 ^ 8 :=
  load_store_self

theorem load_storeRec_of_apart {p q type size : ℕ} (h : q + 8 ≤ p ∨ p + 16 ≤ q) :
    load o (storeRec o m p type size) q 8 = load o m q 8 := by
  unfold storeRec
  rw [load_store_of_apart (by omega), load_store_of_apart (by omega)]

/-- The header of the name space in the object, unless it is overwritten by the end. -/
theorem fexec_namespace (h : fexec o t names m = some m') :
    namespaceRec t + envRecSize + names.length ≤ envSize ∧
      (envAlign names.length = 0 → load o m' (namespaceRec t) 8 = envEnd) ∧
      (envAlign names.length ≠ 0 →
        load o m' (namespaceRec t + 8) 8 = envAlign names.length) := by
  unfold fexec at h
  dsimp only at h
  split_ifs at h with hfits
  obtain rfl := Option.some.inj h
  rw [not_or, not_lt, not_lt] at hfits
  have hplace : fileTableRec + envRecSize + envAlign (t.openMax.toNat * openFileSize)
      = namespaceRec t := rfl
  have hsize : (oftSerialise o t (fileTableRec + envRecSize)
      (store o (copy m 0 7 envMagic) 8 8 0)).2 = t.openMax.toNat * openFileSize := rfl
  rw [hsize, hplace, Nat.add_sub_cancel] at *
  have hlow : 32 ≤ namespaceRec t := by
    unfold namespaceRec fileTableRec envHeaderSize envRecSize
    omega
  have hrec : envRecSize = 16 := rfl
  have hend : endRec t names.length = namespaceRec t + 16 * envAlign names.length := rfl
  refine ⟨hfits.1, fun hzero => ?_, fun hne => ?_⟩
  · rw [load_store_of_apart (Or.inr (by omega))]
    have hsame : endRec t names.length = namespaceRec t := by omega
    rw [hsame, load_storeRec_type]
    rfl
  · rw [load_store_of_apart (Or.inr (by omega)), load_storeRec_of_apart (Or.inl (by omega)),
      load_storeRec_size]
    apply Nat.mod_eq_of_lt
    have hsmall : names.length ≤ envSize := by omega
    have halign := (envAlign_spec hsmall).2.1
    unfold envSize at hsmall
    omega

/-- Behind a record is not where its end is marked. -/
theorem behind_ne_end {p l a : ℕ} (hfits : p + envRecSize + l ≤ envSize) (hlt : a < l + 8) :
    (p + (a + envRecSize)) % 2 ^ 64 ≠ p + envRecSize * a := by
  unfold envRecSize envSize at *
  rw [Nat.mod_eq_of_lt (by omega)]
  omega

/-- **The mark of the end is never found**: decoding goes on right behind the last record, and the
mark is not there. -/
theorem not_decodesToEnd : ¬ DecodesToEnd o room t names m d := by
  rintro ⟨m', hexec, fuel, hdecode, hrecords⟩
  obtain ⟨hfits, hempty, hsize⟩ := fexec_namespace hexec
  unfold envDecode at hdecode
  split_ifs at hdecode
  · obtain ⟨r, hfrom, hr⟩ := Option.map_eq_some_iff.mp hdecode
    obtain rfl := Option.some.inj hr
    obtain ⟨l, hl, hpath⟩ := envDecodeFrom_records hfrom
    rw [hrecords, List.nil_append] at hl
    subst hl
    -- the second record is that of the name space, and the end is behind it
    obtain ⟨-, -, hsecond, htype, hstop, -⟩ := hpath
    obtain ⟨hspace, hheader⟩ := Prod.mk.inj hsecond
    rw [← hheader] at hspace hstop
    by_cases hzero : envAlign names.length = 0
    · rw [hempty hzero] at hspace
      cases hspace
    · unfold nextRec at hstop
      rw [hsize hzero] at hstop
      have hsmall : names.length ≤ envSize := le_trans (Nat.le_add_left _ _) hfits
      obtain ⟨-, hlt, hdvd⟩ := envAlign_spec hsmall
      have htwice : envAlign (envAlign names.length) = envAlign names.length :=
        if_neg (not_not.mpr hdvd)
      rw [htwice] at hstop
      exact behind_ne_end hfits hlt hstop
  · cases hdecode

/-- **The header of the name space lies on the end of the file table.** -/
theorem not_recordsApart (hmax : t.openMax ≤ oftSize) (size : ℕ) : ¬ RecordsApart t size := by
  intro h
  have hfirst := (List.pairwise_cons.mp h).1 ⟨namespaceRec t, namespaceRec t + envRecSize + size⟩
    List.mem_cons_self
  have hsmall : t.openMax.toNat * openFileSize ≤ envSize := by
    unfold oftSize at hmax
    unfold openFileSize envSize
    omega
  obtain ⟨hle, -, -⟩ := envAlign_spec hsmall
  have halign : envAlign (t.openMax.toNat * openFileSize) = t.openMax.toNat * openFileSize := by
    unfold envAlign openFileSize
    exact if_neg (by omega)
  dsimp only at hfirst
  unfold namespaceRec fileTableRec envHeaderSize envRecSize filesOffset at hfirst
  rw [halign] at hfirst
  unfold openFileSize at hfirst
  split_ifs at hfirst <;> omega

/-- **No environment makes the round trip**, however many files are open, and whatever the name
space is: the mark of the end is not where it is looked for, and the records overlap. -/
theorem env_round_trip_never (o : ByteOrder) (room : ℕ → Bool) (t : OpenFiles)
    (names : List (BitVec 8)) (m : ℕ → BitVec 8) :
    ¬ EnvRoundTrip o room t.toFileTable names m ∧
      (∀ d, ¬ DecodesToEnd o room t.toFileTable names m d) ∧
      ¬ RecordsApart t.toFileTable names.length := by
  refine ⟨fun h => ?_, fun d => not_decodesToEnd, not_recordsApart t.bound _⟩
  obtain ⟨⟨d, hd, -⟩, -⟩ := h
  exact not_decodesToEnd hd

/-- One file of a user is open. -/
def oneFile : OpenFiles where
  oftab i := if i = 0 then some ⟨1, 2, fun _ => 0⟩ else none
  openMax := 1
  nonneg := by decide
  bound := by decide
  beyond i hi := if_neg (by omega)

/-- The name space has eight bytes: its header lies on the last bytes of the file, and the mark of
the end is 104 bytes behind the place where it is looked for. -/
theorem env_no_round_trip :
    ¬ ∀ (o : ByteOrder) (room : ℕ → Bool) (t : OpenFiles) (names : List (BitVec 8))
      (m : ℕ → BitVec 8), namespaceRec t.toFileTable + envRecSize + names.length ≤ envSize →
        EnvRoundTrip o room t.toFileTable names m := by
  intro h
  have htrip := h .little (fun _ => true) oneFile (List.replicate 8 0) (fun _ => 0) (by decide)
  have hapart : ¬ RecordsApart oneFile.toFileTable 8 := by decide
  exact hapart htrip.2

end Mungi
