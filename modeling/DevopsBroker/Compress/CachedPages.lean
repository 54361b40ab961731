import DevopsBroker.Compress.CentralDirectorySpec
import DevopsBroker.Compress.OutputSpec

/-!
# Pages that lookups are made in

The members of an archive are read out of pages of memory that lookups move positions in.

- **`lookup_leadsTo`**: the chain of pages from a lookup on has the bits of the file, to its end;
- `Fresh` is the invariant: no lookup has moved a page that begins behind a given offset;
- **`Cached.exact`**: then checksum and writing are of exactly the bytes of the file.
-/

namespace DevopsBroker.Compress

open DevopsBroker.Lib DevopsBroker.Io DevopsBroker.Lang DevopsBroker.Hash

/-! ## Pages of a file, bit by bit -/

/-- Every page is full, but maybe the last one. -/
structure Paged (pages : List FileBuffer) : Prop where
  full : pages.IsChain fun a _ => a.numBytes = MEMORY_PAGE_SIZE
  numBytes_le : ∀ b ∈ pages, b.numBytes ≤ MEMORY_PAGE_SIZE

theorem Paged.drop {pages : List FileBuffer} (h : Paged pages) (i : Nat) : Paged (pages.drop i) :=
  ⟨h.full.drop i, fun b hb => h.numBytes_le b (List.mem_of_mem_drop hb)⟩

theorem totalBytes_cons (b : FileBuffer) (rest : List FileBuffer) :
    totalBytes (b :: rest) = b.numBytes + totalBytes rest := by
  rw [totalBytes, List.map_cons, List.sum_cons]
  rfl

/-- A page further on. -/
theorem pageByte_cons (mem : Mem) (b : FileBuffer) (rest : List FileBuffer) (a : Nat) :
    pageByte mem (b :: rest) (MEMORY_PAGE_SIZE + a) = pageByte mem rest a := by
  have hpos : 0 < MEMORY_PAGE_SIZE := by decide
  unfold pageByte
  rw [Nat.add_div_left a hpos, Nat.add_mod_left, List.getElem?_cons_succ]

/-- **The bytes of the pages are those of the file**, from where the first page begins. -/
theorem pageByte_eq {mem file : Mem} :
    ∀ {rest : List FileBuffer} {b : FileBuffer} {a : Nat}, Contiguous (b :: rest) →
      Paged (b :: rest) → HoldsFile mem file (b :: rest) → (a : Int) < totalBytes (b :: rest) →
      pageByte mem (b :: rest) a = file (b.fileOffset + a).toNat := by
  intro rest
  induction rest with
  | nil =>
    intro b a _ hp hf ha
    have hle := hp.numBytes_le b List.mem_cons_self
    rw [totalBytes_cons] at ha
    have hzero : totalBytes ([] : List FileBuffer) = 0 := rfl
    have hin : a / MEMORY_PAGE_SIZE = 0 := Nat.div_eq_of_lt (by omega)
    have hmod : a % MEMORY_PAGE_SIZE = a := Nat.mod_eq_of_lt (by omega)
    unfold pageByte
    rw [hin, List.getElem?_cons_zero, hmod]
    exact hf b List.mem_cons_self a (by omega)
  | cons c rest ih =>
    intro b a hc hp hf ha
    have hfull : b.numBytes = MEMORY_PAGE_SIZE := (List.isChain_cons_cons.mp hp.full).1
    have hnext : c.fileOffset = b.fileOffset + b.numBytes := (List.isChain_cons_cons.mp hc.next).1
    simp only [MEMORY_PAGE_SIZE] at hfull
    rcases Nat.lt_or_ge a 4096 with hin | hbehind
    · -- in the first page
      unfold pageByte
      simp only [MEMORY_PAGE_SIZE]
      rw [Nat.div_eq_of_lt hin, List.getElem?_cons_zero, Nat.mod_eq_of_lt hin]
      exact hf b List.mem_cons_self a (by omega)
    · obtain ⟨m, rfl⟩ := Nat.exists_eq_add_of_le hbehind
      rw [totalBytes_cons] at ha
      rw [pageByte_cons, ih hc.tail (hp.drop 1) (fun x hx => hf x (List.mem_cons_of_mem b hx)) (by omega)]
      congr 1
      omega

/-- Positions do not change the bytes of the pages. -/
theorem pageByte_place (mem : Mem) (d : Nat → Nat) (pages : List FileBuffer) (i a : Nat) :
    pageByte mem ((place d pages).drop i) a = pageByte mem (pages.drop i) a := by
  unfold pageByte
  rw [List.getElem?_drop, List.getElem?_drop, place_getElem?]
  cases pages[i + a / MEMORY_PAGE_SIZE]? <;> rfl

theorem Paged.totalBytes_le {pages : List FileBuffer} (h : Paged pages) :
    totalBytes pages ≤ MEMORY_PAGE_SIZE * (pages.length : Int) := by
  induction pages with
  | nil => exact Int.le_refl 0
  | cons b rest ih =>
    have hfirst := h.numBytes_le b List.mem_cons_self
    have hrest := ih (h.drop 1)
    simp only [MEMORY_PAGE_SIZE] at hfirst hrest ⊢
    rw [totalBytes_cons, List.length_cons]
    push_cast
    omega

/-- A chain of pages has so many bytes of the file from an offset on, for a bit reader. -/
structure LeadsTo (mem file : Mem) (first : FileBuffer) (next : List FileBuffer)
    (offset length : Nat) : Prop where
  inside : first.dataOffset < MEMORY_PAGE_SIZE
  room : first.dataOffset + length ≤ MEMORY_PAGE_SIZE * (first :: next).length
  stream_eq : ∀ p < 8 * length,
    pageStream mem (first :: next) first.dataOffset p = bitAt (fun k => file (offset + k)) p

/-- **The chain from a lookup on has the bits of the file**, whatever positions the pages behind
the first one are left at. -/
theorem lookup_leadsTo {mem file : Mem} {pages : List FileBuffer} {d : Nat → Nat}
    {l : FileBufferList} {offset length : Nat} (hc : Contiguous pages) (hp : Paged pages)
    (hf : HoldsFile mem file pages) (hl : Stands pages d l) (hr : InRange pages offset length)
    (hpos : 0 < length) :
    ∃ first next,
      chainFrom (containsData l offset length).1 (containsData l offset length).2 = first :: next ∧
        LeadsTo mem file first next offset length := by
  obtain ⟨hfound, hstands⟩ := (containsData_spec hc hl offset length).2 hr
  obtain ⟨b, hb⟩ := exists_isHome hc hr
  obtain ⟨hinside, _⟩ := addressOf_home hc hpos hb
  have hle := hb.starts_le
  have hend : b.fileEnd = b.fileOffset + b.numBytes := rfl
  have hsize := hp.numBytes_le b (List.mem_of_getElem? hb.found)
  have hstart : startIn pages offset = ((offset : Int) - b.fileOffset).toNat := by
    rw [startIn, hb.found]
    rfl
  obtain ⟨hlt, hget⟩ := List.getElem?_eq_some_iff.mp hb.found
  have hpages : pages.drop (home pages offset) = b :: pages.drop (home pages offset + 1) := by
    rw [List.drop_eq_getElem_cons hlt, hget]
  -- the same pages, with their positions
  generalize hd : Function.update d (home pages offset) (startIn pages offset) = d' at hstands
  have hvalue : (place d' pages)[home pages offset]? =
      some { b with dataOffset := startIn pages offset } := by
    rw [place_getElem?, hb.found, ← hd, Function.update_self]
    rfl
  obtain ⟨hlt', hget'⟩ := List.getElem?_eq_some_iff.mp hvalue
  have hchain : (place d' pages).drop (home pages offset) =
      { b with dataOffset := startIn pages offset } ::
        (place d' pages).drop (home pages offset + 1) := by
    rw [List.drop_eq_getElem_cons hlt', hget']
  -- as many bytes follow as the range has
  have hrange := inRange_drop (home pages offset) hc hb.found hle hr
  have hdrop := hc.drop (home pages offset)
  have hpaged := hp.drop (home pages offset)
  have htotal := hpaged.totalBytes_le
  have hholds : HoldsFile mem file (pages.drop (home pages offset)) :=
    fun x hx => hf x (List.mem_of_mem_drop hx)
  rw [hpages] at hrange hdrop hpaged hholds htotal
  have hbytes := hrange.2
  rw [← fileOffset_add_totalBytes _ hdrop] at hbytes
  simp only [MEMORY_PAGE_SIZE] at hsize htotal
  refine ⟨{ b with dataOffset := startIn pages offset },
    (place d' pages).drop (home pages offset + 1), ?_, ⟨?_, ?_, ?_⟩⟩
  · rw [hfound, chainFrom, hstands.values_eq, hchain]
  · show startIn pages offset < 4096
    omega
  · rw [List.length_cons, List.length_drop, place, List.length_mapIdx, ← List.length_drop]
    rw [List.length_cons] at htotal
    show startIn pages offset + length ≤ 4096 * _
    omega
  · intro p hp
    dsimp only
    have hdiv : (8 * startIn pages offset + p) / 8 = startIn pages offset + p / 8 := by omega
    have hmod : (8 * startIn pages offset + p) % 8 = p % 8 := by omega
    unfold pageStream bitAt
    rw [hdiv, hmod, ← hchain, pageByte_place, hpages, pageByte_eq hdrop hpaged hholds (by omega)]
    congr 2
    congr 1
    omega

/-! ## The lookups so far -/

/-- Pages that begin behind an offset are at their start. -/
def Fresh (pages : List FileBuffer) (d : Nat → Nat) (bound : Nat) : Prop :=
  ∀ j b, pages[j]? = some b → (bound : Int) < b.fileOffset → d j = 0

/-- The list has the pages of the file, and no lookup went beyond an offset. -/
def Cached (file : Mem) (pages : List FileBuffer) (bound : Nat) (s : Archive) : Prop :=
  HoldsFile s.mem file pages ∧ ∃ d, Stands pages d s.bufferList ∧ Fresh pages d bound

theorem Cached.mono {file : Mem} {pages : List FileBuffer} {bound bound' : Nat} {s : Archive}
    (h : Cached file pages bound s) (hle : bound ≤ bound') : Cached file pages bound' s := by
  obtain ⟨hf, d, hl, hfresh⟩ := h
  exact ⟨hf, d, hl, fun j b hb hlt => hfresh j b hb (by omega)⟩

section

variable {file : Mem} {pages : List FileBuffer} {bound offset length : Nat} {s : Archive}

/-- The archive after a lookup. -/
def Archive.lookup (s : Archive) (offset length : Nat) : Archive :=
  { s with bufferList := (containsData s.bufferList offset length).1 }

/-- **A lookup moves one page**, and that one begins at its offset or before it. -/
theorem Cached.lookup (hc : Contiguous pages) (h : Cached file pages bound s)
    (hle : bound ≤ offset) (hr : InRange pages offset length) :
    Cached file pages offset (s.lookup offset length) := by
  obtain ⟨hf, d, hl, hfresh⟩ := h
  obtain ⟨b, hb⟩ := exists_isHome hc hr
  refine ⟨hf, _, ((containsData_spec hc hl offset length).2 hr).2, fun j c hj hlt => ?_⟩
  have hne : j ≠ home pages offset := by
    intro hhome
    rw [hhome, hb.found] at hj
    rw [← Option.some.inj hj] at hlt
    have hstarts := hb.starts_le
    omega
  rw [Function.update_of_ne hne]
  exact hfresh j c hj (by omega)

/-- A lookup finds a pointer to the bytes of the file, as far as they are together. -/
theorem Cached.load32 (hc : Contiguous pages) (h : Cached file pages bound s)
    (hr : InRange pages offset length) (hfour : 4 ≤ length)
    (htogether : ∀ k < 4, addressOf pages ((offset + k : Nat) : Int) = addressOf pages offset + k) :
    ∃ i bufPtr, (containsData s.bufferList offset length).2 = some i ∧
      bufPtrOf (s.lookup offset length).bufferList i = some bufPtr ∧
      Compress.load32 (s.lookup offset length).mem bufPtr = Compress.load32 file offset := by
  obtain ⟨hf, d, hl, _⟩ := h
  obtain ⟨bufPtr, hbufPtr, hstart⟩ := lookup_bufPtr hc hl hr
  obtain ⟨i, hi, hbufPtr⟩ := Option.bind_eq_some_iff.mp hbufPtr
  refine ⟨i, bufPtr, hi, hbufPtr, ?_⟩
  obtain rfl := hstart (by omega)
  have hbytes : bytesAt (s.lookup offset length).mem (addressOf pages offset) 4 =
      bytesAt file offset 4 := by
    refine bytesAt_inj.mpr fun k hk => ?_
    rw [← htogether k hk]
    exact hf.byte hc hr (by omega)
  unfold Compress.load32
  rw [orBytes_eq_littleEndian, orBytes_eq_littleEndian, hbytes]

/-- **Checksum and writing are of exactly the bytes of the file** in a range that no lookup
went beyond. -/
theorem Cached.exact (hc : Contiguous pages) (h : Cached file pages bound s)
    (hle : bound ≤ offset) (hr : InRange pages offset length) :
    let chain := chainFrom (s.lookup offset length).bufferList
      (containsData s.bufferList offset length).2
    Io.crc32 s.mem chain length = some (crcOf crc32Polynomial (bytesAt file offset length)) ∧
      ∃ writes, Io.write chain length = some writes ∧
        (writes.map fun call => bytesAt s.mem call.1 call.2).flatten = bytesAt file offset length := by
  obtain ⟨hf, d, hl, hfresh⟩ := h
  obtain ⟨hfound, hstands⟩ := (containsData_spec hc hl offset length).2 hr
  -- the pages behind the one that is found were not looked up
  have hexact : Exact pages ((s.lookup offset length).bufferList.values.drop (home pages offset))
      offset length := by
    refine (exact_iff_behind hc hstands hr).mpr fun c hmem hlt => ?_
    obtain ⟨b, hb⟩ := exists_isHome hc hr
    rw [hstands.values_eq] at hmem
    obtain ⟨k, hk⟩ := List.mem_iff_getElem?.mp hmem
    rw [List.getElem?_drop, place_getElem?, Function.update_of_ne (by omega)] at hk
    obtain ⟨x, hx, rfl⟩ := Option.map_eq_some_iff.mp hk
    refine hfresh _ x hx ?_
    have hbehind := (le_iff_lt_countP (offset : Int) hc.pairwise hx).not
    have hhome : (pages.countP fun b => decide (b.fileOffset ≤ (offset : Int))) - 1 =
      home pages offset := rfl
    have hstarts : ¬ x.fileOffset ≤ (offset : Int) := hbehind.mpr (by omega)
    omega
  have hbytes : (fileAddresses pages offset length).map s.mem = bytesAt file offset length := by
    unfold fileAddresses bytesAt
    rw [List.map_map]
    refine List.map_congr_left fun k hk => ?_
    have hbyte := hf.byte hc hr (List.mem_range.mp hk)
    rw [Int.natCast_add] at hbyte
    exact hbyte
  intro chain
  have hchain : chain = (s.lookup offset length).bufferList.values.drop (home pages offset) := by
    simp only [chain, hfound, chainFrom]
  rw [hchain]
  refine ⟨by rw [hexact.crc32_eq, hbytes], ?_⟩
  obtain ⟨writes, hwrites, haddresses⟩ := Option.map_eq_some_iff.mp hexact.write_eq
  exact ⟨writes, hwrites, by rw [← written_bytes, haddresses, hbytes]⟩

end

end DevopsBroker.Compress
